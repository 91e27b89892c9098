import Mathlib.Logic.Function.Basic
import MarkdownCore.Source.MarkVector

/-!
# Texts and the parser's marks

A text is a list of bytes that each were written somewhere, or were not. A map that holds a text
places each of its bytes where it was written (`Holds`). Maps grow by marks and by runs of one
another, and become slices of one another, in any order; all hold their texts throughout, since a
mark that two maps share begins before the texts of both end (`Inv.shared`).
-/

namespace MarkdownCore.Source

/-- Where a byte was written: its line, its source byte, and where what it stands for ends. -/
structure Place where
  line : ℕ
  source : ℤ
  stop : ℤ
deriving DecidableEq

/-- Where a mark places a byte. -/
def Mark.placeAt (mark : Mark) (offset : ℕ) : Place :=
  ⟨mark.line, mark.place offset false, mark.place offset true⟩

/-- The bytes of a text, each where it was written, if it was. -/
abbrev Text := List (Option Place)

/-- The bytes of a mark's run. -/
def Mark.run (mark : Mark) (bytes : ℕ) : Text :=
  (List.range bytes).map fun x => some (mark.placeAt (mark.offset + x))

/-- A text with bytes at an offset past its end; what is between was not written. -/
def Text.put (text : Text) (offset : ℕ) (new : Text) : Text :=
  text ++ List.replicate (offset - text.length) none ++ new

/-- A run of a text. -/
def Text.run (text : Text) (first length : ℕ) : Text := (text.drop first).take length

/-- The map places each byte of the text where it was written. -/
structure Holds (map : ContentMap) (text : Text) : Prop where
  increasing : Increasing map.marks
  le : ∀ m ∈ map.marks, m.offset ≤ map.origin + text.length
  begins : ∀ m ∈ map.marks.head?, m.offset ≤ map.origin
  marked : text ≠ [] → map.marks ≠ []
  placed : ∀ x place, text[x]? = some (some place) → ∃ i mark,
    Covers map.marks (x + map.origin) i mark ∧ mark.placeAt (x + map.origin) = place

variable {map owner : ContentMap} {text new : Text} {mark head : Mark} {run : List Mark}
  {offset first length : ℕ}

namespace Holds

lemma nil (map : ContentMap) (h : map.marks = []) : Holds map [] := by
  constructor
  · rw [h]
    exact List.Pairwise.nil
  · simp [h]
  · simp [h]
  · simp
  · simp

lemma ok (h : Holds map text) (hne : text ≠ []) : map.Ok := by
  refine ⟨h.increasing, ?_⟩
  obtain ⟨head, rest, hmarks⟩ := List.exists_cons_of_ne_nil (h.marked hne)
  refine ⟨head, by simp [hmarks], h.begins head (by simp [hmarks])⟩

lemma contentPlace (h : Holds map text) {x : ℕ} {place : Place}
    (hx : text[x]? = some (some place)) :
    map.contentPlace x false = some (place.line, place.source) ∧
      map.contentPlace x true = some (place.line, place.stop) := by
  obtain ⟨i, mark, hcovers, rfl⟩ := h.placed x place hx
  exact ⟨Covers.contentPlace h.increasing hcovers false,
    Covers.contentPlace h.increasing hcovers true⟩

/-- A slice of a map holds the slice of its text. -/
lemma slice (h : Holds owner text) (hpos : 0 < length) (hin : first + length ≤ text.length) :
    Holds ⟨owner.slice (first + owner.origin) length, first + owner.origin⟩
      (text.run first length) := by
  have hne : text ≠ [] := by
    rintro rfl
    simp at hin
    omega
  have hok := h.ok hne
  have hstart : owner.origin ≤ first + owner.origin := Nat.le_add_left _ _
  have hlength : (text.run first length).length = length := by
    simp only [Text.run, List.length_take, List.length_drop]
    omega
  have hfirst := hok.covers hstart
  have hcovers := hfirst.slice hok hstart (x := 0) hpos
  rw [Nat.add_zero, Nat.sub_self] at hcovers
  constructor
  · refine List.pairwise_iff_getElem.mpr fun i j hi hj hij => ?_
    obtain ⟨hi', hgeti⟩ :=
      List.getElem?_eq_some_iff.mp (getElem?_slice (List.getElem?_eq_getElem hi)).1
    obtain ⟨hj', hgetj⟩ :=
      List.getElem?_eq_some_iff.mp (getElem?_slice (List.getElem?_eq_getElem hj)).1
    rw [← hgeti, ← hgetj]
    exact List.pairwise_iff_getElem.mp h.increasing _ _ hi' hj' (by omega)
  · intro m hm
    have hle := hok.slice_le hstart hpos hm
    rw [hlength]
    exact le_trans hle (Nat.sub_le _ 1)
  · intro m hm
    rw [List.head?_eq_getElem?, hcovers.found] at hm
    cases hm
    exact hcovers.le
  · intro _ hnil
    have hfound := hcovers.found
    rw [show owner.slice (first + owner.origin) length = [] from hnil] at hfound
    cases hfound
  · intro x place hx
    obtain ⟨hlt, -⟩ := List.getElem?_eq_some_iff.mp hx
    rw [hlength] at hlt
    rw [Text.run, List.getElem?_take, if_pos hlt, List.getElem?_drop] at hx
    obtain ⟨i, mark, hcovers, hplace⟩ := h.placed _ _ hx
    have hsum : first + x + owner.origin = first + owner.origin + x := by omega
    rw [hsum] at hcovers hplace
    have hslice := hcovers.slice hok hstart hlt
    rw [Nat.add_comm _ x] at hslice hplace
    exact ⟨_, mark, hslice, hplace⟩

end Holds

lemma Covers.of_append {marks past : List Mark} {i : ℕ}
    (h : Covers (marks ++ past) offset i mark) (hpast : ∀ m ∈ past, offset < m.offset) :
    Covers marks offset i mark := by
  have hlt : i < marks.length := by
    by_contra hge
    have hfound := h.found
    rw [List.getElem?_append_right (Nat.le_of_not_lt hge)] at hfound
    exact absurd h.le (Nat.not_le.mpr (hpast mark (List.mem_of_getElem? hfound)))
  refine ⟨?_, h.le, fun j later hij hj => ?_⟩
  · rw [← List.getElem?_append_left hlt]
    exact h.found
  · obtain ⟨hlt', -⟩ := List.getElem?_eq_some_iff.mp hj
    refine h.last j later hij ?_
    rw [List.getElem?_append_left hlt']
    exact hj

lemma Covers.shift {marks : List Mark} {i : ℕ} (h : Covers marks offset i mark) (origin : ℕ) :
    Covers (marks.map (Mark.shift · origin)) (offset + origin) i (mark.shift origin) := by
  refine ⟨?_, Nat.add_le_add_right h.le origin, fun j later hij hj => ?_⟩
  · rw [List.getElem?_map, h.found]
    rfl
  · rw [List.getElem?_map] at hj
    obtain ⟨m, hm, rfl⟩ := Option.map_eq_some_iff.mp hj
    exact Nat.add_lt_add_right (h.last j m hij hm) origin

lemma Mark.placeAt_shift (mark : Mark) (offset origin : ℕ) :
    (mark.shift origin).placeAt (offset + origin) = mark.placeAt offset := by
  have hcast : ((offset + origin : ℕ) : ℤ) - ((mark.offset + origin : ℕ) : ℤ) =
      (offset : ℤ) - mark.offset := by omega
  simp only [Mark.placeAt, Mark.place, Mark.shift, hcast]

/-- Bytes whose marks are pushed at the text's end or past it go on from the text. -/
theorem Holds.put (h : Holds map text) (hoffset : text.length ≤ offset)
    (hempty : map.marks = [] → offset = 0) (hhead : run.head? = some head)
    (hat : head.offset = offset) (hinc : Increasing run)
    (hwithin : ∀ m ∈ run, m.offset ≤ offset + new.length)
    (hplaced : ∀ x place, new[x]? = some (some place) → ∃ i mark,
      Covers run (offset + x) i mark ∧ mark.placeAt (offset + x) = place) :
    Holds (run.foldl ContentMap.appendMark map) (text.put offset new) := by
  obtain ⟨marks, origin⟩ := map
  obtain ⟨rest, rfl⟩ := List.head?_eq_some_iff.mp hhead
  obtain ⟨kept, past, rfl, hbefore, hpast, hkept⟩ :=
    @exists_kept marks origin (offset + origin) h.increasing fun m hm => by
      have hle := h.le m hm
      dsimp only at hle
      omega
  have hge : ∀ m ∈ head :: rest, offset ≤ m.offset := by
    intro m hm
    rcases List.mem_cons.mp hm with rfl | hm
    · exact le_of_eq hat.symm
    · exact hat ▸ le_of_lt ((List.pairwise_cons.mp hinc).1 m hm)
  have hincreasing : Increasing (kept ++ (head :: rest).map (Mark.shift · origin)) := by
    refine List.pairwise_append.mpr ⟨?_, ?_, ?_⟩
    · exact h.increasing.sublist (List.sublist_append_left kept past)
    · refine List.pairwise_map.mpr (hinc.imp fun hlt => ?_)
      exact Nat.add_lt_add_right hlt origin
    · intro a ha b hb
      obtain ⟨m, hm, rfl⟩ := List.mem_map.mp hb
      exact lt_of_lt_of_le (hbefore a ha) (Nat.add_le_add_right (hge m hm) origin)
  have hfold : (head :: rest).foldl ContentMap.appendMark ⟨kept ++ past, origin⟩ =
      ⟨kept ++ (head :: rest).map (Mark.shift · origin), origin⟩ := by
    rw [← foldl_appendMark_origin hincreasing, List.foldl_cons, List.foldl_cons,
      hkept head (by rw [hat])]
  have hlength : (text.put offset new).length = offset + new.length := by
    simp only [Text.put, List.length_append, List.length_replicate]
    omega
  rw [hfold]
  constructor
  · exact hincreasing
  · intro m hm
    rw [hlength]
    rcases List.mem_append.mp hm with hm | hm
    · have hlt := hbefore m hm
      dsimp only
      omega
    · obtain ⟨pushed, hpushed, rfl⟩ := List.mem_map.mp hm
      have hle := hwithin pushed hpushed
      dsimp only [Mark.shift]
      omega
  · intro m hm
    cases kept with
    | cons k kept => exact h.begins m hm
    | nil =>
      -- the text's first mark is the one that is pushed
      cases hm
      have hzero : offset = 0 := by
        cases past with
        | nil => exact hempty rfl
        | cons p past =>
          have hp := h.begins p rfl
          have hp' := hpast p List.mem_cons_self
          dsimp only at hp
          omega
      simp [hat, hzero]
  · intro _ hnil
    simp at hnil
  · intro x place hx
    rw [Text.put, List.append_assoc] at hx
    by_cases hlt : x < text.length
    · rw [List.getElem?_append_left hlt] at hx
      obtain ⟨i, mark, hcovers, hplace⟩ := h.placed x place hx
      have hx' : x + origin < offset + origin := by omega
      have hown := hcovers.of_append fun m hm => (hpast m hm).symm ▸ hx'
      refine ⟨i, mark, hown.append fun m hm => ?_, hplace⟩
      obtain ⟨pushed, hpushed, rfl⟩ := List.mem_map.mp hm
      exact lt_of_lt_of_le hx' (Nat.add_le_add_right (hge pushed hpushed) origin)
    · rw [List.getElem?_append_right (Nat.le_of_not_lt hlt)] at hx
      by_cases hgap : x < offset
      · rw [List.getElem?_append_left (by rw [List.length_replicate]; omega),
          List.getElem?_replicate_of_lt (by omega)] at hx
        cases hx
      · rw [List.getElem?_append_right (by rw [List.length_replicate]; omega),
          List.length_replicate] at hx
        obtain ⟨i, mark, hcovers, hplace⟩ := hplaced _ _ hx
        rw [show offset + (x - text.length - (offset - text.length)) = x by omega] at hcovers hplace
        refine ⟨_, _, (hcovers.shift origin).append_right, ?_⟩
        rw [Mark.placeAt_shift, hplace]

lemma Holds.appendMark (h : Holds map text) (bytes : ℕ) (hoffset : text.length ≤ mark.offset)
    (hempty : map.marks = [] → mark.offset = 0) :
    Holds (map.appendMark mark) (text.put mark.offset (mark.run bytes)) := by
  refine @Holds.put _ _ _ mark [mark] _ h hoffset hempty rfl rfl (List.pairwise_singleton _ _)
    ?_ ?_
  · simp
  · intro x place hx
    rw [Mark.run, List.getElem?_map] at hx
    obtain ⟨y, hy, hplace⟩ := Option.map_eq_some_iff.mp hx
    obtain ⟨hlt, hy⟩ := List.getElem?_eq_some_iff.mp hy
    rw [List.getElem_range] at hy
    subst hy
    refine ⟨0, mark, ⟨rfl, Nat.le_add_right _ _, fun j later hj hlater => ?_⟩,
      Option.some.inj hplace⟩
    obtain ⟨hlt', -⟩ := List.getElem?_eq_some_iff.mp hlater
    exact absurd hlt' (Nat.not_lt.mpr hj)

/-- A slice pushed after a text is held as its owner holds it. -/
lemma Holds.appendSlice {text' : Text} (h : Holds map text) (howner : Holds owner text')
    (hpos : 0 < length) (hin : first + length ≤ text'.length) (hoffset : text.length ≤ offset)
    (hempty : map.marks = [] → offset = 0) :
    Holds ((owner.slice (first + owner.origin) length).foldl
      (fun map mark => map.appendMark (mark.cut (first + owner.origin) offset)) map)
      (text.put offset (text'.run first length)) := by
  have hne : text' ≠ [] := by
    rintro rfl
    simp at hin
    omega
  have hok := howner.ok hne
  have hstart : owner.origin ≤ first + owner.origin := Nat.le_add_left _ _
  have hlength : (text'.run first length).length = length := by
    simp only [Text.run, List.length_take, List.length_drop]
    omega
  have hfirst := hok.covers hstart
  have hhead := hfirst.cut hok hstart offset (x := 0) hpos
  rw [Nat.add_zero, Nat.sub_self] at hhead
  rw [← List.foldl_map (f := (Mark.cut · (first + owner.origin) offset))
    (g := ContentMap.appendMark)]
  apply h.put hoffset hempty (List.head?_eq_getElem? ▸ hhead.found)
  · refine le_antisymm hhead.le ?_
    simp only [Mark.cut]
    split <;> omega
  · exact hok.slice_increasing hstart length offset
  · intro m hm
    obtain ⟨read, hread, rfl⟩ := List.mem_map.mp hm
    have hle := hok.slice_le hstart hpos hread
    rw [hlength]
    simp only [Mark.cut]
    split <;> omega
  · intro x place hx
    obtain ⟨hlt, -⟩ := List.getElem?_eq_some_iff.mp hx
    rw [hlength] at hlt
    rw [Text.run, List.getElem?_take, if_pos hlt, List.getElem?_drop] at hx
    obtain ⟨i, mark, hcovers, hplace⟩ := howner.placed _ _ hx
    rw [show first + x + owner.origin = first + owner.origin + x by omega] at hcovers hplace
    refine ⟨_, _, hcovers.cut hok hstart offset hlt, ?_⟩
    have hcut : ∀ stop, (mark.cut (first + owner.origin) offset).place (offset + x) stop =
        mark.place (first + owner.origin + x) stop := by
      intro stop
      rw [place_cut (Nat.le_add_right offset x), Nat.add_sub_cancel_left]
    rw [← hplace, Mark.placeAt, hcut, hcut]
    rfl

/-! ### All maps at once -/

variable {κ : Type}

/-- The parser's marks and the maps that name runs of them. -/
structure MarkVector (κ : Type) where
  marks : List Mark
  maps : κ → MapView

/-- The maps' texts as they come to be: maps grow by marks, each with the bytes of its run, and by
runs of maps, and become slices of maps, in any order. A map grows at the end of its text or past
it, and a first mark is where its text begins. -/
inductive Reaches [DecidableEq κ] : MarkVector κ → (κ → Text) → Prop
  | start (marks : List Mark) : Reaches ⟨marks, fun _ => ⟨0, 0, 0⟩⟩ fun _ => []
  | append {vector : MarkVector κ} {texts : κ → Text} (h : Reaches vector texts) (k : κ)
      (mark : Mark) (bytes : ℕ) (hoffset : (texts k).length ≤ mark.offset)
      (hempty : (vector.maps k).count = 0 → mark.offset = 0) :
      Reaches ⟨((vector.maps k).appendMark vector.marks mark).1,
          Function.update vector.maps k ((vector.maps k).appendMark vector.marks mark).2⟩
        (Function.update texts k ((texts k).put mark.offset (mark.run bytes)))
  | adopt {vector : MarkVector κ} {texts : κ → Text} (h : Reaches vector texts) (owner k : κ)
      (first length : ℕ) (hin : first + length ≤ (texts owner).length) :
      Reaches ⟨vector.marks, Function.update vector.maps k
          ((vector.maps owner).adoptMarks vector.marks (vector.maps k) first length)⟩
        (Function.update texts k
          (if length = 0 then texts k else (texts owner).run first length))
  | copy {vector : MarkVector κ} {texts : κ → Text} (h : Reaches vector texts) (owner k : κ)
      (first length offset : ℕ) (hin : first + length ≤ (texts owner).length)
      (hoffset : (texts k).length ≤ offset) (hempty : (vector.maps k).count = 0 → offset = 0)
      {pushed : List Mark × MapView}
      (hpushed : (vector.maps owner).appendMarks vector.marks (vector.maps k) first length offset =
        some pushed) :
      Reaches ⟨pushed.1, Function.update vector.maps k pushed.2⟩
        (Function.update texts k
          (if length = 0 then texts k else (texts k).put offset ((texts owner).run first length)))
  | rebase {vector : MarkVector κ} {texts : κ → Text} (h : Reaches vector texts) (k : κ)
      (cut remaining : ℕ) (hin : cut + remaining ≤ (texts k).length) :
      Reaches ⟨vector.marks, Function.update vector.maps k
          ((vector.maps k).rebaseMarks vector.marks cut remaining)⟩
        (Function.update texts k (if cut = 0 then texts k else (texts k).run cut remaining))

/-- Every map holds its text, and a mark that two maps share begins before the text of either
ends, so that no map replaces a mark of another's. -/
structure Inv (vector : MarkVector κ) (texts : κ → Text) : Prop where
  within : ∀ k, (vector.maps k).Within vector.marks
  holds : ∀ k, Holds ((vector.maps k).contentMap vector.marks) (texts k)
  shared : ∀ k k' i mark, k ≠ k' → (vector.maps k).Names i → (vector.maps k').Names i →
    vector.marks[i]? = some mark →
    mark.offset < (vector.maps k).offset + (texts k).length

namespace Inv

variable {vector : MarkVector κ} {texts : κ → Text} {k : κ}

lemma start (marks : List Mark) :
    Inv (⟨marks, fun _ => ⟨0, 0, 0⟩⟩ : MarkVector κ) fun _ => [] := by
  refine ⟨fun k => Nat.zero_le _, fun k => ?_, fun k k' i mark hne hk => ?_⟩
  · exact Holds.nil _ rfl
  · exact absurd hk.2 (Nat.not_lt_zero i)

lemma count_ne_zero (h : Inv vector texts) (hpos : 0 < length)
    (hin : first + length ≤ (texts k).length) :
    texts k ≠ [] ∧ (vector.maps k).count ≠ 0 := by
  have hne : texts k ≠ [] := by
    intro hnil
    rw [hnil] at hin
    simp at hin
    omega
  refine ⟨hne, fun hzero => (h.holds k).marked hne ?_⟩
  exact (contentMap_nil (h.within k)).mpr hzero

variable [DecidableEq κ]

/-- A map that grows past its text leaves the others as they were. -/
lemma grow (h : Inv vector texts) {least : ℕ} {marks' : List Mark} {map' : MapView} {text : Text}
    (hgrows : Grows least vector.marks (vector.maps k) marks' map')
    (hleast : (vector.maps k).offset + (texts k).length ≤ least)
    (hholds : Holds (map'.contentMap marks') text) (hlength : (texts k).length ≤ text.length) :
    Inv ⟨marks', Function.update vector.maps k map'⟩ (Function.update texts k text) := by
  -- what a map other than the one that grows names is as it was
  have hstays : ∀ k' ≠ k, ∀ i, (vector.maps k').Names i → marks'[i]? = vector.marks[i]? := by
    intro k' hne i hi
    rcases hgrows.kept i (lt_of_lt_of_le hi.2 (h.within k')) with hkept | ⟨hnames, mark, hm, hle⟩
    · exact hkept
    · have hlt := h.shared k k' i mark hne.symm hnames hi hm
      omega
  have hold : ∀ k' ≠ k, ∀ i, (vector.maps k').Names i → map'.Names i →
      (vector.maps k).Names i := by
    intro k' hne i hi hi'
    exact (hgrows.names i hi').resolve_left (Nat.not_le.mpr (lt_of_lt_of_le hi.2 (h.within k')))
  constructor
  · intro k'
    by_cases hk : k' = k
    · subst hk
      simp only [Function.update_self]
      exact hgrows.within
    · simp only [Function.update_of_ne hk]
      exact le_trans (h.within k') hgrows.length_le
  · intro k'
    by_cases hk : k' = k
    · subst hk
      simp only [Function.update_self]
      exact hholds
    · simp only [Function.update_of_ne hk]
      rw [contentMap_congr (hstays k' hk)]
      exact h.holds k'
  · intro a b i mark hne ha hb hmark
    dsimp only at ha hb hmark ⊢
    by_cases hak : a = k
    · subst hak
      simp only [Function.update_self, Function.update_of_ne hne.symm] at ha hb ⊢
      rw [hstays b hne.symm i hb] at hmark
      have hlt := h.shared a b i mark hne (hold b hne.symm i hb ha) hb hmark
      rw [hgrows.offset_eq]
      omega
    · simp only [Function.update_of_ne hak] at ha ⊢
      rw [hstays a hak i ha] at hmark
      by_cases hbk : b = k
      · subst hbk
        rw [Function.update_self] at hb
        exact h.shared a b i mark hne ha (hold a hak i ha hb) hmark
      · rw [Function.update_of_ne hbk] at hb
        exact h.shared a b i mark hne ha hb hmark

/-- A map that comes to name marks of an owner's that begin before the texts of both end. -/
lemma share (h : Inv vector texts) {map' : MapView} {text : Text} (owner : κ)
    (hwithin : map'.Within vector.marks) (hholds : Holds (map'.contentMap vector.marks) text)
    (hnames : ∀ i mark, map'.Names i → vector.marks[i]? = some mark →
      (vector.maps owner).Names i ∧ mark.offset < map'.offset + text.length ∧
        mark.offset < (vector.maps owner).offset + (texts owner).length) :
    Inv ⟨vector.marks, Function.update vector.maps k map'⟩ (Function.update texts k text) := by
  constructor
  · intro k'
    by_cases hk : k' = k
    · subst hk
      simp only [Function.update_self]
      exact hwithin
    · simp only [Function.update_of_ne hk]
      exact h.within k'
  · intro k'
    by_cases hk : k' = k
    · subst hk
      simp only [Function.update_self]
      exact hholds
    · simp only [Function.update_of_ne hk]
      exact h.holds k'
  · intro a b i mark hne ha hb hmark
    dsimp only at ha hb hmark ⊢
    by_cases hak : a = k
    · subst hak
      simp only [Function.update_self] at ha ⊢
      exact (hnames i mark ha hmark).2.1
    · simp only [Function.update_of_ne hak] at ha ⊢
      by_cases hbk : b = k
      · subst hbk
        rw [Function.update_self] at hb
        obtain ⟨howner, -, hlt⟩ := hnames i mark hb hmark
        by_cases hao : a = owner
        · subst hao
          exact hlt
        · exact h.shared a owner i mark hao ha howner hmark
      · rw [Function.update_of_ne hbk] at hb
        exact h.shared a b i mark hne ha hb hmark

lemma append (h : Inv vector texts) (mark : Mark) (bytes : ℕ)
    (hoffset : (texts k).length ≤ mark.offset)
    (hempty : (vector.maps k).count = 0 → mark.offset = 0) :
    Inv ⟨((vector.maps k).appendMark vector.marks mark).1,
        Function.update vector.maps k ((vector.maps k).appendMark vector.marks mark).2⟩
      (Function.update texts k ((texts k).put mark.offset (mark.run bytes))) := by
  obtain ⟨hmap, hgrows⟩ := appendMark_spec (h.within k) mark
  apply h.grow hgrows
  · omega
  · rw [hmap]
    refine (h.holds k).appendMark bytes hoffset fun hnil => hempty ?_
    exact (contentMap_nil (h.within k)).mp hnil
  · simp only [Text.put, List.length_append]
    omega

lemma adopt (h : Inv vector texts) (owner : κ)
    (hin : first + length ≤ (texts owner).length) :
    Inv ⟨vector.marks, Function.update vector.maps k
        ((vector.maps owner).adoptMarks vector.marks (vector.maps k) first length)⟩
      (Function.update texts k
        (if length = 0 then texts k else (texts owner).run first length)) := by
  by_cases hzero : length = 0
  · rw [if_pos hzero, MapView.adoptMarks, if_pos (Or.inr hzero), Function.update_eq_self,
      Function.update_eq_self]
    exact h
  · have hpos := Nat.pos_of_ne_zero hzero
    obtain ⟨hne, hcount⟩ := h.count_ne_zero hpos hin
    have hok := (h.holds owner).ok hne
    have hstart := Nat.le_add_left (vector.maps owner).offset first
    obtain ⟨hle, hlt, hlength⟩ := slice_indices (h.within owner) hok hstart hpos
    have hadopted := @adoptMarks_contentMap _ (vector.maps k) _ first length (h.within owner) hok
      hpos
    have hlength' : ((texts owner).run first length).length = length := by
      simp only [Text.run, List.length_take, List.length_drop]
      omega
    rw [if_neg hzero]
    apply h.share owner
    · rw [MapView.adoptMarks, if_neg (not_or.mpr ⟨hcount, hzero⟩)]
      have hwithin := h.within owner
      simp only [MapView.Within] at hwithin ⊢
      omega
    · rw [hadopted]
      exact (h.holds owner).slice hpos hin
    · intro i mark hi hmark
      have hslice : mark ∈ ((vector.maps owner).contentMap vector.marks).slice
          (first + (vector.maps owner).offset) length := by
        have hmarks := congrArg ContentMap.marks hadopted
        have hget : (((vector.maps owner).adoptMarks vector.marks (vector.maps k) first
            length).contentMap vector.marks).marks[i - ((vector.maps owner).adoptMarks vector.marks
              (vector.maps k) first length).first]? = some mark := by
          rw [getElem?_contentMap (by have := hi.2; have := hi.1; omega),
            Nat.add_sub_cancel' hi.1]
          exact hmark
        rw [hmarks] at hget
        exact List.mem_of_getElem? hget
      have hbefore := hok.slice_le hstart hpos hslice
      rw [MapView.adoptMarks, if_neg (not_or.mpr ⟨hcount, hzero⟩)] at hi ⊢
      obtain ⟨hlo, hhi⟩ := hi
      dsimp only at hlo hhi ⊢
      refine ⟨⟨?_, by omega⟩, by omega, by omega⟩
      rw [MapView.markIndex] at hlo
      omega

lemma copy (h : Inv vector texts) (owner : κ) (hin : first + length ≤ (texts owner).length)
    (hoffset : (texts k).length ≤ offset) (hempty : (vector.maps k).count = 0 → offset = 0) :
    ∃ pushed, (vector.maps owner).appendMarks vector.marks (vector.maps k) first length offset =
        some pushed ∧
      Inv ⟨pushed.1, Function.update vector.maps k pushed.2⟩ (Function.update texts k
        (if length = 0 then texts k
          else (texts k).put offset ((texts owner).run first length))) := by
  by_cases hzero : length = 0
  · refine ⟨_, by rw [MapView.appendMarks, if_pos hzero], ?_⟩
    rw [if_pos hzero, Function.update_eq_self, Function.update_eq_self]
    exact h
  · have hpos := Nat.pos_of_ne_zero hzero
    obtain ⟨hne, -⟩ := h.count_ne_zero hpos hin
    have hok := (h.holds owner).ok hne
    -- no mark of the slice is one that the map replaces
    have hstay : ∀ i m, (vector.maps owner).Names i → (vector.maps k).Names i →
        vector.marks[i]? = some m → m.offset ≤ first + (vector.maps owner).offset + length - 1 →
        m.offset < offset + (vector.maps k).offset := by
      intro i m howner hk hm hle
      by_cases hok : k = owner
      · subst hok
        omega
      · have hlt := h.shared k owner i m hok hk howner hm
        omega
    obtain ⟨pushed, hpushed, hmap, hgrows⟩ :=
      appendMarks_spec (h.within owner) hok hpos (h.within k) hstay
    refine ⟨pushed, hpushed, ?_⟩
    rw [if_neg hzero]
    apply h.grow hgrows
    · omega
    · rw [hmap]
      refine (h.holds k).appendSlice (h.holds owner) hpos hin hoffset fun hnil => hempty ?_
      exact (contentMap_nil (h.within k)).mp hnil
    · simp only [Text.put, List.length_append]
      omega

lemma rebase (h : Inv vector texts) {cut remaining : ℕ}
    (hin : cut + remaining ≤ (texts k).length) :
    Inv ⟨vector.marks, Function.update vector.maps k
        ((vector.maps k).rebaseMarks vector.marks cut remaining)⟩
      (Function.update texts k
        (if cut = 0 then texts k else (texts k).run cut remaining)) := by
  by_cases hcut : cut = 0
  · rw [if_pos hcut, MapView.rebaseMarks, if_pos (Or.inr hcut), Function.update_eq_self,
      Function.update_eq_self]
    exact h
  · rw [if_neg hcut]
    by_cases hcount : (vector.maps k).count = 0
    · -- a map without marks has no text
      have hnil : texts k = [] := by
        by_contra hne
        exact (h.holds k).marked hne ((contentMap_nil (h.within k)).mpr hcount)
      have hrun : (texts k).run cut remaining = texts k := by
        rw [hnil]
        simp [Text.run]
      rw [MapView.rebaseMarks, if_pos (Or.inl hcount), hrun, Function.update_eq_self,
        Function.update_eq_self]
      exact h
    · rw [MapView.rebaseMarks, if_neg (not_or.mpr ⟨hcount, hcut⟩)]
      by_cases hremaining : remaining = 0
      · subst hremaining
        rw [if_pos rfl, Text.run, List.take_zero]
        apply h.share k
        · exact le_trans (Nat.le_add_right _ _) (h.within k)
        · exact Holds.nil _ rfl
        · intro i mark hi
          exact absurd hi.2 (Nat.not_lt.mpr hi.1)
      · rw [if_neg hremaining]
        have hadopt := h.adopt (k := k) k hin
        rw [if_neg hremaining] at hadopt
        exact hadopt

end Inv

lemma Reaches.inv [DecidableEq κ] {vector : MarkVector κ} {texts : κ → Text}
    (h : Reaches vector texts) : Inv vector texts := by
  induction h with
  | start marks => exact Inv.start marks
  | append _ k mark bytes hoffset hempty ih => exact ih.append mark bytes hoffset hempty
  | adopt _ owner k first length hin ih => exact ih.adopt owner hin
  | copy _ owner k first length offset hin hoffset hempty hpushed ih =>
    obtain ⟨pushed, hpushed', hinv⟩ := ih.copy owner hin hoffset hempty
    rw [hpushed] at hpushed'
    cases hpushed'
    exact hinv
  | rebase _ k cut remaining hin ih => exact ih.rebase hin

/-- However maps grow by marks and by runs of one another, and become slices of one another and of
themselves, each byte of each is placed where it was written, and a run of one is always appended
to another. -/
theorem maps_keep_places [DecidableEq κ] {vector : MarkVector κ} {texts : κ → Text}
    (h : Reaches vector texts) :
    (∀ k x place, (texts k)[x]? = some (some place) →
      (vector.maps k).contentPlace vector.marks x false = some (place.line, place.source) ∧
      (vector.maps k).contentPlace vector.marks x true = some (place.line, place.stop)) ∧
    ∀ owner k first length offset, first + length ≤ (texts owner).length →
      (texts k).length ≤ offset → ((vector.maps k).count = 0 → offset = 0) →
      ((vector.maps owner).appendMarks vector.marks (vector.maps k) first length offset).isSome := by
  have hinv := h.inv
  constructor
  · intro k x place hx
    have hplaces := (hinv.holds k).contentPlace hx
    have hne : texts k ≠ [] := by
      intro hnil
      rw [hnil] at hx
      cases hx
    have hok := (hinv.holds k).ok hne
    have hcount : (vector.maps k).count ≠ 0 := fun hzero =>
      hok.marks_ne_nil ((contentMap_nil (hinv.within k)).mpr hzero)
    have heq : ∀ stop, (vector.maps k).contentPlace vector.marks x stop =
        ((vector.maps k).contentMap vector.marks).contentPlace x stop := by
      intro stop
      have hcovers := hok.covers (Nat.le_add_left (vector.maps k).offset x)
      obtain ⟨hlt, -⟩ := List.getElem?_eq_some_iff.mp hcovers.found
      rw [length_contentMap (hinv.within k)] at hlt
      have hget := @getElem?_contentMap vector.marks _ _ hlt
      rw [MapView.contentPlace, if_neg hcount, ContentMap.contentPlace, if_neg hok.marks_ne_nil,
        MapView.markIndex, List.getD_eq_getElem?_getD, ← hget, ← List.getD_eq_getElem?_getD]
      rfl
    rw [heq, heq]
    exact hplaces
  · intro owner k first length offset hin hoffset hempty
    obtain ⟨pushed, hpushed, -⟩ := hinv.copy (k := k) owner hin hoffset hempty
    rw [hpushed]
    rfl

/-- Two marks, a slice from within the first run, and a run of it copied back after another map
has grown. -/
theorem maps_keep_places_sample :
    ∃ (vector : MarkVector (Fin 3)) (texts : Fin 3 → Text), Reaches vector texts ∧
      (vector.maps 0).contentPlace vector.marks 6 false = some (2, 21) := by
  have h := Reaches.start (κ := Fin 3) []
  have h := h.append 0 ⟨0, 1, 10, 1, 1⟩ 3 (by decide) (by decide)
  have h := h.append 0 ⟨3, 2, 20, 1, 1⟩ 2 (by decide) (by decide)
  have h := h.adopt 0 1 2 3 (by decide)
  have h := h.append 2 ⟨0, 3, 30, 3, 0⟩ 3 (by decide) (by decide)
  have h := h.copy 1 0 1 2 5 (by decide) (by decide) (by decide) rfl
  have hplaces := (maps_keep_places h).1 0 6 ⟨2, 21, 22⟩ (by decide)
  exact ⟨_, _, h, hplaces.1⟩

end MarkdownCore.Source
