import Mathlib.Data.List.GetD
import MarkdownCore.Source.ContentMap

/-!
# What a content map places

The mark of a byte is the last that begins at it or before (`Covers`). Marks that place the bytes
of a range of the text place them still when marks past the range follow (`Run.append`), so that a
text put together from runs of a line or of another text is placed where its bytes were written.
-/

namespace MarkdownCore.Source

variable {marks marks' : List Mark} {mark mark' : Mark} {offset i i' lo mid hi : ℕ}

/-! ### The mark of a byte -/

/-- Each mark begins past the one before. -/
def Increasing (marks : List Mark) : Prop := marks.Pairwise (·.offset < ·.offset)

/-- The mark at `i` is the last that begins at the byte or before. -/
structure Covers (marks : List Mark) (offset i : ℕ) (mark : Mark) : Prop where
  found : marks[i]? = some mark
  le : mark.offset ≤ offset
  last : ∀ j later, i < j → marks[j]? = some later → offset < later.offset

lemma Covers.unique (h : Covers marks offset i mark) (h' : Covers marks offset i' mark') :
    i = i' := by
  rcases Nat.lt_trichotomy i i' with hlt | heq | hlt
  · exact absurd h'.le (Nat.not_le.mpr (h.last i' mark' hlt h'.found))
  · exact heq
  · exact absurd h.le (Nat.not_le.mpr (h'.last i mark hlt h.found))

/-- The mark of a byte is the one a search that finds its index reads. -/
lemma Covers.getD_eq (hfound : Covers marks offset i (marks.getD i default))
    (h : Covers marks offset i' mark) : marks.getD i default = mark := by
  have hget := hfound.found
  rw [hfound.unique h, h.found] at hget
  rw [hfound.unique h]
  exact (Option.some.inj hget).symm

lemma Increasing.le (h : Increasing marks) (hle : i ≤ i') (hi : marks[i]? = some mark)
    (hi' : marks[i']? = some mark') : mark.offset ≤ mark'.offset := by
  obtain ⟨hlt, rfl⟩ := List.getElem?_eq_some_iff.mp hi
  obtain ⟨hlt', rfl⟩ := List.getElem?_eq_some_iff.mp hi'
  rcases Nat.lt_or_eq_of_le hle with hlt'' | rfl
  · exact le_of_lt (List.pairwise_iff_getElem.mp h i i' hlt hlt' hlt'')
  · exact le_refl _

/-- A later byte's mark is no earlier. -/
lemma Covers.mono {offset' : ℕ} (h : Covers marks offset i mark)
    (h' : Covers marks offset' i' mark') (hle : offset ≤ offset') : i ≤ i' := by
  by_contra hlt
  have hlater := h'.last i mark (Nat.lt_of_not_le hlt) h.found
  exact absurd (le_trans h.le hle) (Nat.not_le.mpr hlater)

/-- Whether the mark at an index begins at the byte or before. -/
lemma falls_before (h : Increasing marks) :
    ∀ ⦃i j⦄, i ≤ j → j < marks.length → (marks.getD j default).offset ≤ offset →
      (marks.getD i default).offset ≤ offset := by
  intro i j hij hj hle
  have hi := lt_of_le_of_lt hij hj
  rw [List.getD_eq_getElem _ _ hj] at hle
  rw [List.getD_eq_getElem _ _ hi]
  exact le_trans (h.le hij (List.getElem?_eq_getElem hi) (List.getElem?_eq_getElem hj)) hle

/-- The search finds the mark of a byte that the first mark begins at or before. -/
theorem markAt_covers (h : Increasing marks) {first : Mark} (hfirst : marks.head? = some first)
    (hle : first.offset ≤ offset) :
    Covers marks offset (markAt marks offset) (marks.getD (markAt marks offset) default) := by
  obtain ⟨rest, rfl⟩ : ∃ rest, marks = first :: rest := List.head?_eq_some_iff.mp hfirst
  -- what an index that begins before, with none after it that does, tells
  have hcovers : ∀ i, i < (first :: rest).length →
      ((first :: rest).getD i default).offset ≤ offset →
      (∀ j, i < j → j < (first :: rest).length →
        offset < ((first :: rest).getD j default).offset) →
      Covers (first :: rest) offset i ((first :: rest).getD i default) := by
    intro i hi hbefore hafter
    refine ⟨?_, hbefore, ?_⟩
    · rw [List.getD_eq_getElem _ _ hi, List.getElem?_eq_getElem hi]
    · intro j later hij hj
      obtain ⟨hlt, rfl⟩ := List.getElem?_eq_some_iff.mp hj
      have hlater := hafter j hij hlt
      rwa [List.getD_eq_getElem _ _ hlt] at hlater
  have hafter : ∀ i, ¬ ((first :: rest).getD i default).offset ≤ offset → ∀ j, i ≤ j →
      j < (first :: rest).length → offset < ((first :: rest).getD j default).offset := by
    intro i hi j hij hj
    exact Nat.lt_of_not_le fun hle' => hi (falls_before h hij hj hle')
  have hzero : ((first :: rest).getD 0 default).offset ≤ offset := hle
  generalize hmarks : first :: rest = marks at *
  have hpos : 0 < marks.length := by rw [← hmarks]; exact Nat.succ_pos _
  rw [markAt]
  dsimp only
  rw [if_pos (decide_eq_true hzero)]
  split
  next hone =>
    obtain ⟨hhi, hone⟩ := hone
    split
    next htwo =>
      obtain ⟨hhi', htwo⟩ := htwo
      have hfalls : ∀ ⦃i j⦄, i ≤ j → j ≤ marks.length - 1 →
          decide ((marks.getD j default).offset ≤ offset) = true →
          decide ((marks.getD i default).offset ≤ offset) = true := by
        intro i j hij hj hj'
        exact decide_eq_true (falls_before h hij (by omega) (of_decide_eq_true hj'))
      obtain ⟨hle', hbefore, hlast⟩ := @Bisect.last_spec
        (fun k => decide ((marks.getD k default).offset ≤ offset)) marks.length 2
        (marks.length - 1) hfalls (by omega) (by omega) htwo
      refine hcovers _ (by omega) (of_decide_eq_true hbefore) fun j hj hlt => ?_
      exact Nat.lt_of_not_le (of_decide_eq_false (hlast j hj (by omega)))
    next htwo =>
      refine hcovers 1 (by omega) (of_decide_eq_true hone) fun j hj hlt => ?_
      refine hafter 2 (fun hle' => ?_) j hj hlt
      exact htwo ⟨by omega, decide_eq_true hle'⟩
  next hone =>
    refine hcovers 0 hpos hzero fun j hj hlt => ?_
    refine hafter 1 (fun hle' => ?_) j hj hlt
    exact hone ⟨by omega, decide_eq_true hle'⟩

/-! ### Runs -/

variable {first last : ℕ → ℤ} {run : List Mark}

/-- The marks lie in a range of the text and place each byte of it. -/
structure Run (marks : List Mark) (lo hi : ℕ) (first last : ℕ → ℤ) : Prop where
  increasing : Increasing marks
  within : ∀ mark ∈ marks, lo ≤ mark.offset ∧ mark.offset < hi
  placed : ∀ x, lo ≤ x → x < hi → ∃ i mark, Covers marks x i mark ∧
    mark.place x false = first x ∧ mark.place x true = last x

lemma Run.congr {first' last' : ℕ → ℤ} (h : Run marks lo hi first last)
    (heq : ∀ x, lo ≤ x → x < hi → first x = first' x ∧ last x = last' x) :
    Run marks lo hi first' last' := by
  refine ⟨h.increasing, h.within, fun x hlo hhi => ?_⟩
  obtain ⟨i, mark, hcovers, hfirst, hlast⟩ := h.placed x hlo hhi
  obtain ⟨hfirst', hlast'⟩ := heq x hlo hhi
  exact ⟨i, mark, hcovers, hfirst.trans hfirst', hlast.trans hlast'⟩

lemma Run.nil : Run [] lo lo first last := by
  refine ⟨List.Pairwise.nil, by simp, fun x hlo hhi => ?_⟩
  exact absurd hhi (Nat.not_lt.mpr hlo)

/-- One mark places all that begins at it. -/
lemma Run.single (hlo : mark.offset = lo) (hlt : lo < hi) :
    Run [mark] lo hi (mark.place · false) (mark.place · true) := by
  refine ⟨List.pairwise_singleton _ _, ?_, fun x hx hx' => ⟨0, mark, ?_, rfl, rfl⟩⟩
  · intro m hm
    rw [List.mem_singleton.mp hm, hlo]
    exact ⟨le_refl lo, hlt⟩
  · refine ⟨rfl, hlo.le.trans hx, fun j later hj hlater => ?_⟩
    obtain ⟨hlength, -⟩ := List.getElem?_eq_some_iff.mp hlater
    exact absurd hlength (Nat.not_lt.mpr hj)

/-- Marks past a byte leave its mark as it is. -/
lemma Covers.append (h : Covers marks offset i mark)
    (hpast : ∀ later ∈ marks', offset < later.offset) : Covers (marks ++ marks') offset i mark := by
  obtain ⟨hlt, -⟩ := List.getElem?_eq_some_iff.mp h.found
  refine ⟨?_, h.le, fun j later hij hj => ?_⟩
  · rw [List.getElem?_append_left hlt]
    exact h.found
  · by_cases hlength : j < marks.length
    · rw [List.getElem?_append_left hlength] at hj
      exact h.last j later hij hj
    · rw [List.getElem?_append_right (Nat.le_of_not_lt hlength)] at hj
      exact hpast later (List.mem_of_getElem? hj)

lemma Covers.append_right (h : Covers marks' offset i mark) :
    Covers (marks ++ marks') offset (marks.length + i) mark := by
  refine ⟨?_, h.le, fun j later hij hj => ?_⟩
  · rw [List.getElem?_append_right (Nat.le_add_right _ _), Nat.add_sub_cancel_left]
    exact h.found
  · rw [List.getElem?_append_right (by omega)] at hj
    exact h.last (j - marks.length) later (by omega) hj

lemma Run.append (h : Run marks lo mid first last) (h' : Run marks' mid hi first last)
    (hlo : lo ≤ mid) (hhi : mid ≤ hi) : Run (marks ++ marks') lo hi first last := by
  constructor
  · refine List.pairwise_append.mpr ⟨h.increasing, h'.increasing, fun a ha b hb => ?_⟩
    exact lt_of_lt_of_le (h.within a ha).2 (h'.within b hb).1
  · intro a ha
    rcases List.mem_append.mp ha with ha | ha
    · exact ⟨(h.within a ha).1, lt_of_lt_of_le (h.within a ha).2 hhi⟩
    · exact ⟨le_trans hlo (h'.within a ha).1, (h'.within a ha).2⟩
  · intro x hx hx'
    by_cases hmid : x < mid
    · obtain ⟨i, mark, hcovers, hplaces⟩ := h.placed x hx hmid
      exact ⟨i, mark, hcovers.append fun b hb => lt_of_lt_of_le hmid (h'.within b hb).1, hplaces⟩
    · obtain ⟨i, mark, hcovers, hplaces⟩ := h'.placed x (Nat.le_of_not_lt hmid) hx'
      exact ⟨_, mark, hcovers.append_right, hplaces⟩

/-- A byte is where its mark places it. -/
lemma Covers.contentPlace {origin : ℕ} (h : Increasing marks) {x : ℕ}
    (hcovers : Covers marks (x + origin) i mark) (stop : Bool) :
    (⟨marks, origin⟩ : ContentMap).contentPlace x stop =
      some (mark.line, mark.place (x + origin) stop) := by
  have hlength : marks ≠ [] := by
    rintro rfl
    cases hcovers.found
  obtain ⟨head, rest, rfl⟩ := List.exists_cons_of_ne_nil hlength
  have hle : head.offset ≤ x + origin :=
    le_trans (Increasing.le h (Nat.zero_le i) rfl hcovers.found) hcovers.le
  have hfound := markAt_covers h (List.head?_cons) hle
  rw [ContentMap.contentPlace, if_neg hlength]
  dsimp only
  rw [hfound.getD_eq hcovers]

/-- Where a text placed by its marks has a byte. -/
theorem Run.contentPlace (h : Run marks 0 hi first last) {x : ℕ} (hx : x < hi) (stop : Bool) :
    ((⟨marks, 0⟩ : ContentMap).contentPlace x stop).map Prod.snd =
      some (if stop then last x else first x) := by
  obtain ⟨i, mark, hcovers, hfirst, hlast⟩ := h.placed x (Nat.zero_le x) hx
  rw [@Covers.contentPlace _ _ _ 0 h.increasing x hcovers stop]
  cases stop with
  | false => exact congrArg some hfirst
  | true => exact congrArg some hlast

/-- Marks past those of a map are pushed after them. -/
lemma appendMark_eq {origin : ℕ} (h : ∀ m ∈ marks, m.offset < mark.offset + origin) :
    (⟨marks, origin⟩ : ContentMap).appendMark mark =
      ⟨marks ++ [{ mark with offset := mark.offset + origin }], origin⟩ := by
  rw [ContentMap.appendMark]
  dsimp only
  cases hlast : marks.getLast? with
  | none =>
    rw [List.getLast?_eq_none_iff.mp hlast]
    rfl
  | some m =>
    have hlt := h m (List.mem_of_getLast? hlast)
    dsimp only
    rw [if_neg (Nat.ne_of_lt hlt)]

/-- A mark where the last one is takes its place: it goes on from the marks before it. -/
lemma exists_kept {origin at' : ℕ} (h : Increasing marks) (hle : ∀ m ∈ marks, m.offset ≤ at') :
    ∃ kept past, marks = kept ++ past ∧ (∀ m ∈ kept, m.offset < at') ∧
      (∀ m ∈ past, m.offset = at') ∧ ∀ mark : Mark, mark.offset + origin = at' →
        (⟨marks, origin⟩ : ContentMap).appendMark mark =
          (⟨kept, origin⟩ : ContentMap).appendMark mark := by
  rcases List.eq_nil_or_concat marks with rfl | ⟨init, last, rfl⟩
  · exact ⟨[], [], rfl, by simp, by simp, fun _ _ => rfl⟩
  · rw [List.concat_eq_append] at h hle ⊢
    have hlt := (List.pairwise_append.mp h).2.2
    by_cases hlast : last.offset = at'
    · have hinit : ∀ m ∈ init, m.offset < at' := by
        intro m hm
        exact hlast ▸ hlt m hm last (List.mem_singleton_self last)
      refine ⟨init, [last], rfl, hinit, by simpa using hlast, fun mark hmark => ?_⟩
      rw [@appendMark_eq init mark origin fun m hm => hmark.symm ▸ hinit m hm,
        ContentMap.appendMark]
      simp [hlast, hmark]
    · refine ⟨_, [], (List.append_nil _).symm, fun m hm => ?_, by simp, fun _ _ => rfl⟩
      rcases List.mem_append.mp hm with hm | hm
      · exact lt_of_lt_of_le (hlt m hm last (List.mem_singleton_self last))
          (hle last (by simp))
      · rw [List.mem_singleton.mp hm]
        exact lt_of_le_of_ne (hle last (by simp)) hlast

/-- A mark as the parser's vector has it, of a text that begins at `origin`. -/
def Mark.shift (mark : Mark) (origin : ℕ) : Mark := { mark with offset := mark.offset + origin }

@[simp] lemma Mark.shift_zero (mark : Mark) : mark.shift 0 = mark := rfl

@[simp] lemma Mark.shift_offset (mark : Mark) (origin : ℕ) :
    (mark.shift origin).offset = mark.offset + origin := rfl

lemma foldl_appendMark_origin {origin : ℕ}
    (h : Increasing (marks ++ run.map (Mark.shift · origin))) :
    run.foldl ContentMap.appendMark ⟨marks, origin⟩ =
      ⟨marks ++ run.map (Mark.shift · origin), origin⟩ := by
  induction run generalizing marks with
  | nil => rw [List.foldl_nil, List.map_nil, List.append_nil]
  | cons mark run ih =>
    have hlt := (List.pairwise_append.mp h).2.2
    have hassoc : marks ++ [mark.shift origin] ++ run.map (Mark.shift · origin) =
        marks ++ (mark :: run).map (Mark.shift · origin) := by
      rw [List.append_assoc, List.singleton_append, List.map_cons]
    rw [List.foldl_cons, appendMark_eq fun m hm => hlt m hm (mark.shift origin) (by simp),
      ← hassoc, ← ih (hassoc ▸ h)]
    rfl

lemma foldl_appendMark (h : Increasing (marks ++ run)) :
    run.foldl ContentMap.appendMark ⟨marks, 0⟩ = ⟨marks ++ run, 0⟩ := by
  have hrun : run.map (Mark.shift · 0) = run := List.map_id run
  have hfold := @foldl_appendMark_origin marks run 0
  rw [hrun] at hfold
  exact hfold h

/-! ### A run of another text -/

variable {owner : ContentMap} {start length : ℕ}

lemma ContentMap.Ok.covers (h : owner.Ok) (hle : owner.origin ≤ offset) :
    Covers owner.marks offset (markAt owner.marks offset)
      (owner.marks.getD (markAt owner.marks offset) default) := by
  obtain ⟨mark, hmark, hfirst⟩ := h.covered
  exact markAt_covers h.increasing hmark (le_trans hfirst hle)

lemma ContentMap.Ok.marks_ne_nil (h : owner.Ok) : owner.marks ≠ [] := by
  obtain ⟨mark, hmark, -⟩ := h.covered
  intro hnil
  rw [hnil] at hmark
  cases hmark

/-- The owner's place of a byte, `0` where it has none. -/
def ContentMap.placeOf (owner : ContentMap) (x : ℕ) (stop : Bool) : ℤ :=
  ((owner.contentPlace x stop).map Prod.snd).getD 0

lemma ContentMap.Ok.contentPlace (h : owner.Ok) (x : ℕ) (stop : Bool) :
    (owner.contentPlace x stop).map Prod.snd = some (owner.placeOf x stop) := by
  rw [ContentMap.placeOf, ContentMap.contentPlace, if_neg h.marks_ne_nil]
  rfl

lemma ContentMap.Ok.placeOf_eq (h : owner.Ok) {x : ℕ} (stop : Bool)
    (hcovers : Covers owner.marks (x + owner.origin) i mark) :
    owner.placeOf x stop = mark.place (x + owner.origin) stop := by
  have hfound := h.covers (Nat.le_add_left owner.origin x)
  rw [ContentMap.placeOf, ContentMap.contentPlace, if_neg h.marks_ne_nil]
  dsimp only
  rw [hfound.getD_eq hcovers]
  rfl

/-- A mark of a slice is one of the owner's, from that of the first byte to that of the last. -/
lemma getElem?_slice {j : ℕ} {m : Mark} (h : (owner.slice start length)[j]? = some m) :
    owner.marks[markAt owner.marks start + j]? = some m ∧
      markAt owner.marks start + j ≤ markAt owner.marks (start + length - 1) := by
  rw [ContentMap.slice, List.getElem?_take] at h
  split at h
  next hlt =>
    rw [List.getElem?_drop] at h
    exact ⟨h, by omega⟩
  next => cases h

lemma getElem?_slice_of_le {k : ℕ} (hlo : markAt owner.marks start ≤ k)
    (hhi : k ≤ markAt owner.marks (start + length - 1)) :
    (owner.slice start length)[k - markAt owner.marks start]? = owner.marks[k]? := by
  rw [ContentMap.slice, List.getElem?_take, if_pos (by omega), List.getElem?_drop, Nat.add_sub_cancel' hlo]

/-- The marks of a slice past the first begin past where it does. -/
lemma cut_offset_of_pos (h : owner.Ok) (hstart : owner.origin ≤ start) {j : ℕ} {m : Mark}
    (hm : (owner.slice start length)[j]? = some m) (hj : 0 < j) : start < m.offset := by
  have hcovers := h.covers hstart
  exact hcovers.last _ m (Nat.lt_add_of_pos_right hj) (getElem?_slice hm).1

/-- A mark cut at a byte places what follows it as before. -/
lemma place_cut {first x : ℕ} (hx : offset ≤ x) (stop : Bool) :
    (mark.cut first offset).place x stop = mark.place (first + (x - offset)) stop := by
  simp only [Mark.place, Mark.cut]
  rw [Int.add_assoc mark.source, ← Int.add_mul]
  congr 3
  split <;> omega

/-- The marks of a slice are in order still when they are cut. -/
lemma ContentMap.Ok.slice_increasing (h : owner.Ok) (hstart : owner.origin ≤ start)
    (length offset : ℕ) :
    Increasing ((owner.slice start length).map (·.cut start offset)) := by
  refine List.pairwise_map.mpr (List.pairwise_iff_getElem.mpr fun i j hi hj hij => ?_)
  have hm := List.getElem?_eq_getElem hi
  have hm' := List.getElem?_eq_getElem hj
  have hlt := cut_offset_of_pos h hstart hm' (Nat.zero_lt_of_lt hij)
  have hne : (owner.slice start length)[i].offset < (owner.slice start length)[j].offset := by
    have hincreasing := List.pairwise_iff_getElem.mp h.increasing
    obtain ⟨hi', hgeti⟩ := List.getElem?_eq_some_iff.mp (getElem?_slice hm).1
    obtain ⟨hj', hgetj⟩ := List.getElem?_eq_some_iff.mp (getElem?_slice hm').1
    rw [← hgeti, ← hgetj]
    exact hincreasing _ _ hi' hj' (by omega)
  simp only [Mark.cut]
  split <;> split <;> omega

/-- No mark of a slice begins past its last byte. -/
lemma ContentMap.Ok.slice_le (h : owner.Ok) (hstart : owner.origin ≤ start)
    (hpos : 0 < length) (hm : mark ∈ owner.slice start length) :
    mark.offset ≤ start + length - 1 := by
  have hlast := h.covers (show owner.origin ≤ start + length - 1 by omega)
  obtain ⟨j, hj⟩ := List.mem_iff_getElem?.mp hm
  obtain ⟨hfound, hle⟩ := getElem?_slice hj
  exact le_trans (Increasing.le h.increasing hle hfound hlast.found) hlast.le

/-- The mark of a byte of a slice is the owner's. -/
lemma Covers.slice (h : owner.Ok) (hstart : owner.origin ≤ start) {x : ℕ} (hx : x < length)
    (hcovers : Covers owner.marks (start + x) i mark) :
    Covers (owner.slice start length) (start + x) (i - markAt owner.marks start) mark := by
  have hfirst := h.covers hstart
  have hlast := h.covers (show owner.origin ≤ start + length - 1 by omega)
  have hlo := hfirst.mono hcovers (Nat.le_add_right start x)
  have hhi := hcovers.mono hlast (by omega)
  refine ⟨?_, hcovers.le, fun j later hj hlater => ?_⟩
  · rw [getElem?_slice_of_le hlo hhi]
    exact hcovers.found
  · exact hcovers.last _ later (by omega) (getElem?_slice hlater).1

lemma Covers.cut (h : owner.Ok) (hstart : owner.origin ≤ start) (offset : ℕ) {x : ℕ}
    (hx : x < length) (hcovers : Covers owner.marks (start + x) i mark) :
    Covers ((owner.slice start length).map (·.cut start offset)) (offset + x)
      (i - markAt owner.marks start) (mark.cut start offset) := by
  have hslice := hcovers.slice h hstart hx
  refine ⟨?_, ?_, fun j later hj hlater => ?_⟩
  · rw [List.getElem?_map, hslice.found]
    rfl
  · have hle := hcovers.le
    simp only [Mark.cut]
    split <;> omega
  · rw [List.getElem?_map] at hlater
    obtain ⟨m, hm, rfl⟩ := Option.map_eq_some_iff.mp hlater
    have hlater := hslice.last j m hj hm
    simp only [Mark.cut]
    split <;> omega

/-- A run of the owner's text is placed where the owner places it. -/
theorem ContentMap.Ok.slice_run (h : owner.Ok) (first offset : ℕ) {length : ℕ}
    (hpos : 0 < length) :
    Run ((owner.slice (first + owner.origin) length).map (·.cut (first + owner.origin) offset))
      offset (offset + length) (fun x => owner.placeOf (first + (x - offset)) false)
      (fun x => owner.placeOf (first + (x - offset)) true) := by
  have hstart : owner.origin ≤ first + owner.origin := Nat.le_add_left _ _
  refine ⟨h.slice_increasing hstart length offset, ?_, ?_⟩
  · intro m hm
    obtain ⟨m, hmem, rfl⟩ := List.mem_map.mp hm
    have hle := h.slice_le hstart hpos hmem
    simp only [Mark.cut]
    split <;> omega
  · intro x hx hx'
    have hcovers := h.covers
      (show owner.origin ≤ first + owner.origin + (x - offset) by omega)
    have hcut := hcovers.cut h hstart offset (show x - offset < length by omega)
    have hsum : first + (x - offset) + owner.origin = first + owner.origin + (x - offset) := by
      omega
    have hplace : ∀ stop, owner.placeOf (first + (x - offset)) stop =
        (owner.marks.getD (markAt owner.marks (first + owner.origin + (x - offset)))
          default).place (first + owner.origin + (x - offset)) stop := by
      intro stop
      rw [h.placeOf_eq (x := first + (x - offset)) stop (hsum.symm ▸ hcovers), hsum]
    rw [Nat.add_sub_cancel' hx] at hcut
    refine ⟨_, _, hcut, ?_, ?_⟩
    · rw [place_cut hx, hplace]
    · rw [place_cut hx, hplace]

/-- A run of the owner's text goes on from the marks of the text that takes it. -/
theorem ContentMap.Ok.appendMarks (h : owner.Ok) (first : ℕ) {length offset : ℕ}
    (hpos : 0 < length) (hmarks : Increasing marks) (hbefore : ∀ m ∈ marks, m.offset < offset) :
    ∃ run, owner.appendMarks ⟨marks, 0⟩ first length offset = some ⟨marks ++ run, 0⟩ ∧
      Run run offset (offset + length) (fun x => owner.placeOf (first + (x - offset)) false)
        (fun x => owner.placeOf (first + (x - offset)) true) := by
  have hrun := h.slice_run first offset hpos
  refine ⟨_, ?_, hrun⟩
  have hincreasing : Increasing (marks ++
      (owner.slice (first + owner.origin) length).map (·.cut (first + owner.origin) offset)) := by
    refine List.pairwise_append.mpr ⟨hmarks, hrun.increasing, fun a ha b hb => ?_⟩
    exact lt_of_lt_of_le (hbefore a ha) (hrun.within b hb).1
  rw [ContentMap.appendMarks, if_neg (Nat.ne_of_gt hpos), if_neg h.marks_ne_nil,
    ← foldl_appendMark hincreasing, List.foldl_map]

/-- A slice of a text is placed where the text is. -/
theorem ContentMap.Ok.adoptMarks (h : owner.Ok) {map : ContentMap} {first length : ℕ}
    (hpos : 0 < length) :
    (owner.adoptMarks map first length).Ok ∧ ∀ x < length, ∀ stop,
      (owner.adoptMarks map first length).placeOf x stop = owner.placeOf (first + x) stop := by
  rw [ContentMap.adoptMarks, if_neg (not_or.mpr ⟨h.marks_ne_nil, Nat.ne_of_gt hpos⟩)]
  have hstart : owner.origin ≤ first + owner.origin := Nat.le_add_left _ _
  generalize hF : first + owner.origin = start at hstart
  have hfirst := h.covers hstart
  have hlast := h.covers (show owner.origin ≤ start + length - 1 by omega)
  have hle := hfirst.mono hlast (by omega)
  have hhead := getElem?_slice_of_le (le_refl _) hle
  rw [Nat.sub_self, hfirst.found] at hhead
  have hok : (ContentMap.mk (owner.slice start length) start).Ok := by
    constructor
    · refine List.pairwise_iff_getElem.mpr fun i j hi hj hij => ?_
      obtain ⟨hi', hgeti⟩ :=
        List.getElem?_eq_some_iff.mp (getElem?_slice (List.getElem?_eq_getElem hi)).1
      obtain ⟨hj', hgetj⟩ :=
        List.getElem?_eq_some_iff.mp (getElem?_slice (List.getElem?_eq_getElem hj)).1
      rw [← hgeti, ← hgetj]
      exact List.pairwise_iff_getElem.mp h.increasing _ _ hi' hj' (by omega)
    · refine ⟨_, ?_, hfirst.le⟩
      rw [List.head?_eq_getElem?]
      exact hhead
  refine ⟨hok, fun x hx stop => ?_⟩
  have hcovers := h.covers (show owner.origin ≤ start + x by omega)
  have hwithin := hcovers.slice h hstart hx
  have hsum : first + x + owner.origin = start + x := by omega
  have howner := h.placeOf_eq (x := first + x) stop (hsum.symm ▸ hcovers)
  rw [Nat.add_comm start x] at hwithin
  rw [hok.placeOf_eq (x := x) stop hwithin, howner, hsum, Nat.add_comm x start]

/-! ### A line that holds NUL -/

section

variable {start k : ℕ} {nuls : List ℕ}

/-- The replacement characters of a line lie one after another. -/
lemma nulIndex_lt (hinc : nuls.Pairwise (· < ·)) (hin : ∀ nul ∈ nuls, start ≤ nul) {j : ℕ}
    (hjk : j < k) (hk : k < nuls.length) : nulIndex start nuls j + 3 ≤ nulIndex start nuls k := by
  have hj : j < nuls.length := hjk.trans hk
  have hlt := List.pairwise_iff_getElem.mp hinc j k hj hk hjk
  have hle := hin _ (List.getElem_mem hj)
  rw [nulIndex, nulIndex, List.getD_eq_getElem _ _ hj, List.getD_eq_getElem _ _ hk]
  omega

/-- A bisection of values that do not fall. -/
lemma bisect_le_spec {value : ℕ → ℕ} {length index turn : ℕ}
    (hmono : ∀ i j, i ≤ j → j < length → value i ≤ value j)
    (hturn : Bisect.bisect (fun k => value k ≤ index) length 0 length = turn) :
    turn ≤ length ∧ (∀ i < turn, value i ≤ index) ∧ (turn < length → index < value turn) := by
  have hcongr : Bisect.bisect (fun k => value k ≤ index) length 0 length =
      Bisect.bisect (fun k => decide (k < length ∧ value k ≤ index)) length 0 length := by
    apply Bisect.bisect_congr
    intro k hk
    rw [decide_eq_decide]
    exact ⟨fun hle => ⟨hk, hle⟩, fun h => h.2⟩
  have hfalls : Bisect.Falls fun k => decide (k < length ∧ value k ≤ index) := by
    intro i j hij hj
    rw [decide_eq_true_eq] at hj ⊢
    exact ⟨lt_of_le_of_lt hij hj.1, le_trans (hmono i j hij hj.1) hj.2⟩
  rw [hcongr] at hturn
  subst hturn
  refine ⟨(Bisect.bisect_bounds _ (Nat.zero_le length)).2, fun i hi => ?_, fun hlt => ?_⟩
  · exact (of_decide_eq_true (Bisect.bisect_below hfalls (Nat.zero_le i) hi)).2
  · have hnot := of_decide_eq_false (Bisect.bisect_not_below (Nat.sub_le length 0) hlt)
    exact Nat.lt_of_not_le fun hle => hnot ⟨hlt, hle⟩

lemma bisect_le {value : ℕ → ℕ} {length index turn : ℕ}
    (hmono : ∀ i j, i ≤ j → j < length → value i ≤ value j) (hturn : turn ≤ length)
    (hbefore : ∀ i < turn, value i ≤ index) (hfrom : turn < length → index < value turn) :
    Bisect.bisect (fun k => value k ≤ index) length 0 length = turn := by
  obtain ⟨hle, hbefore', hfrom'⟩ := @bisect_le_spec value length index _ hmono rfl
  generalize Bisect.bisect (fun k => decide (value k ≤ index)) length 0 length = turn'
    at hle hbefore' hfrom' ⊢
  rcases Nat.lt_trichotomy turn' turn with hlt | heq | hlt
  · exact absurd (hbefore turn' hlt) (Nat.not_le.mpr (hfrom' (lt_of_lt_of_le hlt hturn)))
  · exact heq
  · exact absurd (hbefore' turn hlt) (Nat.not_le.mpr (hfrom (lt_of_lt_of_le hlt hle)))

lemma nulIndex_mono (hinc : nuls.Pairwise (· < ·)) (hin : ∀ nul ∈ nuls, start ≤ nul) (i j : ℕ)
    (hij : i ≤ j) (hj : j < nuls.length) : nulIndex start nuls i ≤ nulIndex start nuls j := by
  rcases Nat.lt_or_eq_of_le hij with hlt | rfl
  · have := nulIndex_lt hinc hin hlt hj
    omega
  · exact le_refl _

/-- The search counts the NULs at a byte or before: one whose replacement character holds it. -/
lemma bisect_inside (hinc : nuls.Pairwise (· < ·)) (hin : ∀ nul ∈ nuls, start ≤ nul)
    {index : ℕ} (hk : k < nuls.length) (hle : nulIndex start nuls k ≤ index)
    (hlt : index < nulIndex start nuls k + 3) :
    Bisect.bisect (fun k => nulIndex start nuls k ≤ index) nuls.length 0 nuls.length = k + 1 :=
  bisect_le (nulIndex_mono hinc hin) hk
    (fun i hi => le_trans (nulIndex_mono hinc hin i k (Nat.le_of_lt_succ hi) hk) hle)
    (fun hlt' => lt_of_lt_of_le hlt (nulIndex_lt hinc hin k.lt_succ_self hlt'))

/-- Or those whose replacement characters end before it. -/
lemma bisect_outside (hinc : nuls.Pairwise (· < ·)) (hin : ∀ nul ∈ nuls, start ≤ nul)
    {index : ℕ} (hk : k ≤ nuls.length) (hbefore : ∀ j < k, nulIndex start nuls j + 3 ≤ index)
    (hfrom : k < nuls.length → index < nulIndex start nuls k) :
    Bisect.bisect (fun k => nulIndex start nuls k ≤ index) nuls.length 0 nuls.length = k :=
  bisect_le (nulIndex_mono hinc hin) hk
    (fun i hi => le_trans (Nat.le_add_right _ 3) (hbefore i hi)) hfrom

/-- A byte of a replacement character stands for its NUL. -/
lemma denormalizedOffset_inside (hinc : nuls.Pairwise (· < ·)) (hin : ∀ nul ∈ nuls, start ≤ nul)
    {index : ℕ} (hk : k < nuls.length) (hle : nulIndex start nuls k ≤ index)
    (hlt : index < nulIndex start nuls k + 3) :
    denormalizedOffset start nuls index = nuls.getD k 0 := by
  have hturn := bisect_inside hinc hin hk hle hlt
  rw [denormalizedOffset, hturn, Nat.add_sub_cancel, if_pos ⟨k.succ_pos, hlt⟩]

/-- Any other byte is as far from the line's start as the NULs before it leave it. -/
lemma denormalizedOffset_outside (hinc : nuls.Pairwise (· < ·)) (hin : ∀ nul ∈ nuls, start ≤ nul)
    {index : ℕ} (hk : k ≤ nuls.length) (hbefore : ∀ j < k, nulIndex start nuls j + 3 ≤ index)
    (hfrom : k < nuls.length → index < nulIndex start nuls k) :
    denormalizedOffset start nuls index = (start : ℤ) + index - 2 * k := by
  rw [denormalizedOffset, bisect_outside hinc hin hk hbefore hfrom, if_neg]
  rintro ⟨hpos, hlt⟩
  exact absurd (hbefore (k - 1) (by omega)) (Nat.not_le.mpr hlt)

/-- A run that starts at `index` of the line. -/
lemma nulMarks_run (hinc : nuls.Pairwise (· < ·)) (hin : ∀ nul ∈ nuls, start ≤ nul)
    {number first last offset origin fuel index : ℕ} (hfuel : last - index ≤ fuel)
    (hfirst : first ≤ index) (hlast : index ≤ last) (hk : k ≤ nuls.length)
    (hbefore : index < last → ∀ j < k, nulIndex start nuls j + 3 ≤ index)
    (hfrom : index < last → k < nuls.length → index < nulIndex start nuls k + 3)
    (hmarks : Increasing marks)
    (hpast : ∀ m ∈ marks, m.offset < offset + origin + index - first) :
    ∃ run, InputLine.nulMarks start nuls number first last offset fuel index k ⟨marks, origin⟩ =
        ⟨marks ++ run, origin⟩ ∧
      Run run (offset + origin + index - first) (offset + origin + last - first)
        (fun x => denormalizedOffset start nuls (first + (x - (offset + origin))))
        (fun x => denormalizedOffset start nuls (first + (x - (offset + origin))) + 1) := by
  induction fuel generalizing index k marks with
  | zero =>
    obtain rfl : index = last := by omega
    refine ⟨[], ?_, Run.nil⟩
    rw [InputLine.nulMarks, List.append_nil]
  | succ fuel ih =>
    rw [InputLine.nulMarks]
    split
    next hlt =>
      have hoffset : offset + index - first + origin = offset + origin + index - first := by omega
      generalize htotal : offset + origin = total at ih hpast hoffset ⊢
      -- one mark, which places the bytes up to `next`, and the marks from there on
      have hturn : ∀ (source step : ℤ) (next k' : ℕ), index < next → next ≤ last →
          k' ≤ nuls.length →
          (∀ y, index ≤ y → y < next →
            source + ((y : ℤ) - index) * step = denormalizedOffset start nuls y) →
          (next < last → ∀ j < k', nulIndex start nuls j + 3 ≤ next) →
          (next < last → k' < nuls.length → next < nulIndex start nuls k' + 3) →
          ∃ run, InputLine.nulMarks start nuls number first last offset fuel next k'
              ((⟨marks, origin⟩ : ContentMap).appendMark
                ⟨offset + index - first, number, source, 1, step⟩) = ⟨marks ++ run, origin⟩ ∧
            Run run (total + index - first) (total + last - first)
              (fun x => denormalizedOffset start nuls (first + (x - total)))
              (fun x => denormalizedOffset start nuls (first + (x - total)) + 1) := by
        intro source step next k' hnext hnext' hk' hplace hbefore' hfrom'
        have hsingle := @Run.single (Mark.mk (total + index - first) number source 1 step)
          (total + index - first) (total + next - first) rfl (by omega)
        have hrun : Run [Mark.mk (total + index - first) number source 1 step]
            (total + index - first) (total + next - first)
            (fun x => denormalizedOffset start nuls (first + (x - total)))
            (fun x => denormalizedOffset start nuls (first + (x - total)) + 1) := by
          refine hsingle.congr fun x hx hx' => ?_
          have hy := hplace (first + (x - total)) (by omega) (by omega)
          have hcast : ((first + (x - total) : ℕ) : ℤ) - index =
              (x : ℤ) - ((total + index - first : ℕ) : ℤ) := by omega
          rw [← hy, hcast]
          exact ⟨Int.add_zero _, rfl⟩
        have hmarks' : Increasing
            (marks ++ [Mark.mk (total + index - first) number source 1 step]) := by
          refine List.pairwise_append.mpr ⟨hmarks, List.pairwise_singleton _ _, ?_⟩
          intro a ha b hb
          rw [List.mem_singleton.mp hb]
          exact hpast a ha
        have hpast' : ∀ m ∈ marks ++ [Mark.mk (total + index - first) number source 1 step],
            m.offset < total + next - first := by
          intro m hm
          rcases List.mem_append.mp hm with hm | hm
          · exact lt_of_lt_of_le (hpast m hm) (by omega)
          · rw [List.mem_singleton.mp hm]
            dsimp only
            omega
        obtain ⟨rest, hrest, hrun'⟩ := @ih _ k' next (by omega) (by omega) hnext' hk' hbefore'
          hfrom' hmarks' hpast'
        refine ⟨_, ?_, hrun.append hrun' (by omega) (by omega)⟩
        rw [appendMark_eq (by rw [hoffset]; exact hpast)]
        dsimp only
        rw [hoffset, hrest, List.append_assoc]
      have hbefore := hbefore hlt
      have hfrom := hfrom hlt
      by_cases hinside : k < nuls.length ∧ nulIndex start nuls k ≤ index
      · -- a replacement character, or what is left of one
        obtain ⟨hk', hle⟩ := hinside
        have hend := hfrom hk'
        simp only [hk', hle, if_true, and_self, decide_true]
        apply hturn
        · split <;> omega
        · split <;> omega
        · exact hk'
        · intro y hy hy'
          have hy'' : y < nulIndex start nuls k + 3 := by
            split at hy' <;> omega
          rw [denormalizedOffset_inside hinc hin hk' (le_trans hle hy) hy'']
          omega
        · intro hnext j hj
          have hj' := nulIndex_mono hinc hin j k (Nat.le_of_lt_succ hj) hk'
          rw [if_pos (by split at hnext <;> omega)]
          omega
        · intro hnext hk''
          have := nulIndex_lt hinc hin (Nat.lt_add_one k) hk''
          rw [if_pos (by split at hnext <;> omega)]
          omega
      · -- bytes of the line itself, up to the next replacement character
        generalize hplace : (if k < nuls.length then nulIndex start nuls k else last) = place
        have hinside' : ¬ (k < nuls.length ∧ place ≤ index) := by
          rintro ⟨hk', hle⟩
          rw [if_pos hk'] at hplace
          exact hinside ⟨hk', hplace ▸ hle⟩
        have hpast' : index < place := by
          by_cases hk' : k < nuls.length
          · exact Nat.lt_of_not_le fun hle => hinside' ⟨hk', hle⟩
          · rw [if_neg hk'] at hplace
            exact hplace ▸ hlt
        simp only [hinside', decide_false, Bool.false_eq_true, if_false]
        apply hturn
        · split <;> omega
        · split <;> omega
        · exact hk
        · intro y hy hy'
          have hy'' : k < nuls.length → y < nulIndex start nuls k := by
            intro hk'
            rw [if_pos hk'] at hplace
            split at hy' <;> omega
          rw [denormalizedOffset_outside hinc hin hk (fun j hj => le_trans (hbefore j hj) hy) hy'']
          omega
        · intro hnext j hj
          have hj' := hbefore j hj
          rw [if_pos (by split at hnext <;> omega)]
          omega
        · intro hnext hk'
          rw [if_pos hk'] at hplace
          rw [if_pos (by split at hnext <;> omega)]
          omega
    next hge =>
      obtain rfl : index = last := by omega
      exact ⟨[], by rw [List.append_nil], Run.nil⟩

end

/-! ### A run of a line -/

/-- The line's place of a byte, `0` where it has none. -/
def InputLine.placeOf (line : InputLine) (index : ℕ) (stop : Bool) : ℤ :=
  (if stop then line.sourceEnd index else line.sourceOffset index).getD 0

lemma InputLine.sourceOffset_eq (line : InputLine) (index : ℕ) :
    line.sourceOffset index = some (line.placeOf index false) := by
  cases line with
  | copied start => rfl
  | nul start nuls hinc hin => rfl
  | mapped start owner ok =>
    exact (ok.contentPlace (start + index) false).trans rfl

lemma InputLine.sourceEnd_eq (line : InputLine) (index : ℕ) :
    line.sourceEnd index = some (line.placeOf index true) := by
  cases line with
  | copied start => rfl
  | nul start nuls hinc hin => rfl
  | mapped start owner ok =>
    exact (ok.contentPlace (start + index) true).trans rfl

/-- A run of a line goes on from the marks of the text that takes it, placed where the line is. -/
theorem InputLine.appendMarks_run (line : InputLine) {number index length offset : ℕ}
    (hpos : 0 < length) (hmarks : Increasing marks) (hbefore : ∀ m ∈ marks, m.offset < offset) :
    ∃ run, line.appendMarks ⟨marks, 0⟩ number index length offset = some ⟨marks ++ run, 0⟩ ∧
      Run run offset (offset + length) (fun x => line.placeOf (index + (x - offset)) false)
        (fun x => line.placeOf (index + (x - offset)) true) := by
  cases line with
  | copied start =>
    have hsingle := @Run.single (Mark.mk offset number (start + index) 1 1) offset
      (offset + length) rfl (Nat.lt_add_of_pos_right hpos)
    refine ⟨_, congrArg some (appendMark_eq hbefore), hsingle.congr fun x hx hx' => ?_⟩
    simp only [Mark.place, InputLine.placeOf, InputLine.sourceOffset, InputLine.sourceEnd,
      Option.getD_some, if_true, Bool.false_eq_true, if_false]
    omega
  | nul start nuls hinc hin =>
    have hfalls : ∀ i j, i ≤ j → j < nuls.length →
        nulIndex start nuls i + 3 ≤ nulIndex start nuls j + 3 := fun i j hij hj =>
      Nat.add_le_add_right (nulIndex_mono hinc hin i j hij hj) 3
    obtain ⟨hle, hbefore', hfrom⟩ := @bisect_le_spec _ nuls.length index _ hfalls rfl
    have hstart : offset + index - index = offset := Nat.add_sub_cancel offset index
    have hend : offset + (index + length) - index = offset + length := by omega
    have hfirst : ∀ m ∈ marks, m.offset < offset + index - index := hstart.symm ▸ hbefore
    obtain ⟨run, hrun, hplaced⟩ := @nulMarks_run _ start _ nuls hinc hin number index
      (index + length) offset 0 length index (by omega) (le_refl _) (Nat.le_add_right _ _) hle
      (fun _ => hbefore') (fun _ => hfrom) hmarks hfirst
    rw [Nat.add_zero, hstart, hend] at hplaced
    exact ⟨run, congrArg some hrun, hplaced⟩
  | mapped start owner ok =>
    obtain ⟨run, hrun, hplaced⟩ := ok.appendMarks (start + index) hpos hmarks hbefore
    refine ⟨run, hrun, hplaced.congr fun x hx hx' => ?_⟩
    have hsum : start + index + (x - offset) = start + (index + (x - offset)) := by omega
    rw [hsum]
    exact ⟨rfl, rfl⟩

end MarkdownCore.Source
