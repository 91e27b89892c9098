import MarkdownCore.Library.Pattern
import MarkdownCore.Library.Scanner
import MarkdownCore.Inline.Content

/-!
# The scanner rules of inline HTML

The rules of the generated scanners, as patterns, and how the body of a processing instruction,
a CDATA section or a comment is taken apart by them: up to so many bytes of the closer's mark
and one more byte are a unit, and the closer is those marks and a `>` where a unit could begin.
-/

namespace MarkdownCore.Inline

open Computability

/-- One byte, as a pattern. -/
def chr (c : UInt8) : Pattern UInt8 := .one fun d => d = c

/-- Any byte but these and NUL. -/
def noneOf (cs : List UInt8) : Pattern UInt8 := .one fun d => d ≠ 0 && !cs.contains d

/-- One byte of these ranges. -/
def range (rs : List (UInt8 × UInt8)) : Pattern UInt8 :=
  .one fun d => rs.any fun r => r.1 ≤ d && d ≤ r.2

def literal (cs : List UInt8) : Pattern UInt8 := .word (cs.map chr)

def letters : List (UInt8 × UInt8) := [(0x41, 0x5a), (0x61, 0x7a)]

def digits : List (UInt8 × UInt8) := [(0x30, 0x39)]

def spaceOrTab : Pattern UInt8 := .alt (chr 0x20) (chr 0x09)

def newline : Pattern UInt8 := .alt (.seq (chr 0x0d) (.opt (chr 0x0a))) (chr 0x0a)

def spnl : Pattern UInt8 :=
  .seq (.star spaceOrTab) (.opt (.seq newline (.star spaceOrTab)))

def spnl1 : Pattern UInt8 :=
  .alt (.seq (.plus spaceOrTab) (.opt (.seq newline (.star spaceOrTab))))
    (.seq newline (.star spaceOrTab))

def tagname : Pattern UInt8 :=
  .seq (range letters) (.star (range (letters ++ digits ++ [(0x2d, 0x2d)])))

def attributename : Pattern UInt8 :=
  .seq (range (letters ++ [(0x5f, 0x5f), (0x3a, 0x3a)]))
    (.star (range (letters ++ digits ++ [(0x3a, 0x3a), (0x2e, 0x2e), (0x5f, 0x5f), (0x2d, 0x2d)])))

def unquotedvalue : Pattern UInt8 :=
  .plus (noneOf [0x20, 0x09, 0x0d, 0x0a, 0x22, 0x27, 0x3d, 0x3c, 0x3e, 0x60])

def singlequotedvalue : Pattern UInt8 :=
  .word [chr 0x27, .star (noneOf [0x27]), chr 0x27]

def doublequotedvalue : Pattern UInt8 :=
  .word [chr 0x22, .star (noneOf [0x22]), chr 0x22]

def attributevalue : Pattern UInt8 :=
  .alt unquotedvalue (.alt singlequotedvalue doublequotedvalue)

def attributevaluespec : Pattern UInt8 := .word [spnl, chr 0x3d, spnl, attributevalue]

def tagattribute : Pattern UInt8 := .word [spnl1, attributename, .opt attributevaluespec]

def opentag : Pattern UInt8 :=
  .word [tagname, .star tagattribute, spnl, .opt (chr 0x2f), chr 0x3e]

def closetag : Pattern UInt8 := .word [chr 0x2f, tagname, spnl, chr 0x3e]

def htmltag : Pattern UInt8 := .alt opentag closetag

/-- One unit of a processing instruction. -/
def piUnit : Pattern UInt8 :=
  .alt (.plus (noneOf [0x3f, 0x3e])) (.alt (.seq (chr 0x3f) (noneOf [0x3e])) (chr 0x3e))

def processinginstruction : Pattern UInt8 := .plus piUnit

def declaration : Pattern UInt8 := .seq (.plus (range letters)) (.star (noneOf [0x3e]))

/-- One unit of a body that two marks and a `>` close. -/
def markedUnit (mark : UInt8) : Pattern UInt8 :=
  .alt (.plus (noneOf [mark]))
    (.alt (.seq (chr mark) (noneOf [mark])) (.seq (literal [mark, mark]) (noneOf [0x3e])))

def cdata : Pattern UInt8 :=
  .seq (literal [0x43, 0x44, 0x41, 0x54, 0x41, 0x5b]) (.star (markedUnit 0x5d))

def htmlcomment : Pattern UInt8 :=
  .seq (literal [0x2d, 0x2d]) (.seq (.star (markedUnit 0x2d)) (literal [0x2d, 0x2d, 0x3e]))

/-- A generated scanner: the length of the longest match at an offset, or `0`. -/
def scanPattern (r : Pattern UInt8) (data : List UInt8) (offset : ℕ) : ℕ :=
  if data.length ≤ offset then 0 else (r.longest (data.drop offset)).getD 0

/-! ### The units of a body -/

/-- The units between marks: fewer marks than the closer has and a byte that is none, or all of
them and a byte that is not `>`. -/
def units (mark : UInt8) (count : ℕ) : Language UInt8 :=
  {w | ∃ j c, w = List.replicate j mark ++ [c] ∧
    (j < count ∧ c ≠ mark ∨ j = count ∧ c ≠ 0x3e)}

/-- Whether the marks and a `>` stand at a position. -/
def closerAt (mark : UInt8) (count : ℕ) (data : List UInt8) (pos : ℕ) : Bool :=
  count ≤ width (fun c => c = mark) data pos && data[pos + count]? = some 0x3e

/-- A body read unit by unit. -/
def bodyScanner (mark : UInt8) (count : ℕ) (data : List UInt8) : Scanner where
  width pos := min count (width (fun c => c = mark) data pos) + 1
  closes pos := closerAt mark count data pos
  width_pos _ := Nat.succ_pos _

/-- Marks that are followed by another byte. -/
lemma width_replicate {mark c : UInt8} {j : ℕ} {rest : List UInt8} (h : c ≠ mark) :
    width (fun c => c = mark) (List.replicate j mark ++ c :: rest) 0 = j := by
  rw [width, List.drop_zero]
  induction j with
  | zero => simp [h]
  | succ j ih => simp [List.replicate_succ, h]

lemma width_drop (p : UInt8 → Bool) (data : List UInt8) (pos : ℕ) :
    width p data pos = width p (data.drop pos) 0 := by
  simp [width]

/-- At least the marks that are there. -/
lemma le_width_replicate (mark : UInt8) (j : ℕ) (rest : List UInt8) :
    j ≤ width (fun c => c = mark) (List.replicate j mark ++ rest) 0 := by
  rw [width, List.drop_zero]
  induction j with
  | zero => exact Nat.zero_le _
  | succ j ih => simp [List.replicate_succ]

/-- A unit at the beginning of what is left is the one the body scanner takes. -/
lemma unit_step {mark : UInt8} {count : ℕ} {data w rest : List UInt8} {pos : ℕ}
    (hw : w ∈ units mark count) (hdata : data.drop pos = w ++ rest) :
    (bodyScanner mark count data).width pos = w.length ∧
      (bodyScanner mark count data).closes pos = false := by
  obtain ⟨j, c, rfl, hunit⟩ := hw
  have hget : data[pos + j]? = some c := by
    rw [← List.getElem?_drop, hdata]
    simp
  rw [List.append_assoc, List.singleton_append] at hdata
  simp only [bodyScanner, closerAt, List.length_append, List.length_replicate,
    List.length_singleton]
  rw [width_drop, hdata]
  rcases hunit with ⟨hj, hc⟩ | ⟨rfl, hc⟩
  · rw [width_replicate hc]
    constructor
    · omega
    · simp only [Bool.and_eq_false_iff, decide_eq_false_iff_not]
      left
      omega
  · have hle := le_width_replicate mark j (c :: rest)
    constructor
    · omega
    · simp only [Bool.and_eq_false_iff, decide_eq_false_iff_not]
      right
      rw [hget]
      simpa using hc

/-- The bytes of a step that does not close and stays in the text are a unit. -/
lemma step_unit {mark : UInt8} {count : ℕ} {data : List UInt8} {pos : ℕ}
    (hcloses : (bodyScanner mark count data).closes pos = false)
    (hend : pos + (bodyScanner mark count data).width pos ≤ data.length) :
    (data.drop pos).take ((bodyScanner mark count data).width pos) ∈ units mark count := by
  have hcount : ∃ j, j = min count (width (fun c => c = mark) data pos) := ⟨_, rfl⟩
  obtain ⟨j, hj⟩ := hcount
  have hwidth : (bodyScanner mark count data).width pos = j + 1 := by rw [hj]; rfl
  rw [hwidth] at hend ⊢
  have hlt : pos + j < data.length := by omega
  obtain ⟨c, hget⟩ : ∃ c, data[pos + j]? = some c := ⟨_, List.getElem?_eq_getElem hlt⟩
  have hmarks : (data.drop pos).take j = List.replicate j mark := by
    apply List.ext_getElem?
    intro i
    rw [List.getElem?_take, List.getElem?_replicate]
    by_cases hi : i < j
    · obtain ⟨c, hc, hp⟩ := width_holds (fun c => c = mark) data pos i (by omega)
      rw [if_pos hi, if_pos hi, List.getElem?_drop, hc]
      simpa using hp
    · rw [if_neg hi, if_neg hi]
  refine ⟨j, c, ?_, ?_⟩
  · rw [List.take_add_one, hmarks, List.getElem?_drop, hget]
    rfl
  · rcases Nat.lt_or_ge (width (fun c => c = mark) data pos) count with hlt' | hge
    · left
      have hjw : j = width (fun c => c = mark) data pos := by omega
      refine ⟨by omega, ?_⟩
      rw [hjw] at hget
      have hstop := width_stops (fun c => c = mark) data pos hget
      simpa using hstop
    · right
      have hjc : j = count := by omega
      refine ⟨hjc, ?_⟩
      intro heq
      simp only [bodyScanner, closerAt, Bool.and_eq_false_iff, decide_eq_false_iff_not] at hcloses
      rcases hcloses with h | h
      · omega
      · rw [← hjc, hget, heq] at h
        simp at h

/-- The beginnings of a text that are made of units end where the body scanner comes by. -/
lemma take_mem_units {mark : UInt8} {count : ℕ} {data : List UInt8} {start n : ℕ}
    (hn : start + n ≤ data.length) :
    (data.drop start).take n ∈ (units mark count)∗ ↔
      (bodyScanner mark count data).Meets start (start + n) := by
  constructor
  · intro h
    obtain ⟨words, hflat, hwords⟩ := Language.mem_kstar.mp h
    have hdata : data.drop start = words.flatten ++ (data.drop start).drop n := by
      rw [← hflat, List.take_append_drop]
    have hlen : n = words.flatten.length := by
      rw [← hflat, List.length_take, List.length_drop]
      omega
    rw [hlen]
    clear hflat hlen h hn
    generalize (data.drop start).drop n = rest at hdata
    induction words generalizing start with
    | nil => exact .start
    | cons w words ih =>
      rw [List.flatten_cons, List.append_assoc] at hdata
      obtain ⟨hwidth, hcloses⟩ := unit_step (hwords w (List.mem_cons_self ..)) hdata
      have hrest : data.drop (start + w.length) = words.flatten ++ rest := by
        rw [← List.drop_drop, hdata, List.drop_left]
      have hmeets := ih (fun y hy => hwords y (List.mem_cons_of_mem _ hy)) hrest
      have hstart : (bodyScanner mark count data).Meets start start := .start
      have hfirst := hstart.step hcloses
      rw [hwidth] at hfirst
      rw [List.flatten_cons, List.length_append, ← Nat.add_assoc]
      exact hfirst.trans hmeets
  · intro h
    obtain ⟨pos, hpos⟩ : ∃ pos, pos = start + n := ⟨_, rfl⟩
    rw [← hpos] at h hn
    obtain rfl : n = pos - start := by omega
    clear hpos
    induction h with
    | start => simp [Language.nil_mem_kstar]
    | @step unit hmeets hcloses ih =>
      have hle := hmeets.le
      have hunit := step_unit hcloses hn
      have hpre := ih (by omega)
      have hsplit : (data.drop start).take (unit + (bodyScanner mark count data).width unit -
          start) = (data.drop start).take (unit - start) ++
            (data.drop unit).take ((bodyScanner mark count data).width unit) := by
        rw [show unit + (bodyScanner mark count data).width unit - start =
            (unit - start) + (bodyScanner mark count data).width unit by omega, List.take_add,
          List.drop_drop, show start + (unit - start) = unit by omega]
      rw [hsplit, ← Language.one_add_kstar_mul_self_eq_kstar, Language.mem_add]
      exact Or.inr (Language.append_mem_mul hpre hunit)

end MarkdownCore.Inline
