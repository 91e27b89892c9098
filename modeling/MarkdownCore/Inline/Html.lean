import MarkdownCore.Inline.HtmlBody

/-!
# Inline HTML

The scan behind a `<`, with the flags that keep it from looking again for a closer it has not
found, and what the grammar of comments, processing instructions, CDATA sections and
declarations asks of it.
-/

namespace MarkdownCore.Inline

/-- The flag word of an inline state, as far as inline HTML goes. -/
structure HtmlFlags where
  skipCdata : Bool := false
  skipDeclaration : Bool := false
  skipPi : Bool := false
  skipComment : Bool := false

/-- The length of the comment at a position, `0` if it does not close; none if there is no
comment. -/
def commentScanHtml (data : List UInt8) (pos : ℕ) (flags : HtmlFlags) :
    Option (ℕ × HtmlFlags) :=
  if byteAt data pos ≠ 0x21 ∨ byteAt data (pos + 1) ≠ 0x2d ∨ byteAt data (pos + 2) ≠ 0x2d then
    none
  else if byteAt data (pos + 3) = 0x3e then
    some (4, flags)
  else if byteAt data (pos + 3) = 0x2d ∧ byteAt data (pos + 4) = 0x3e then
    some (5, flags)
  else
    let length := scanPattern htmlcomment data (pos + 1)
    if 0 < length then
      some (length + 1, flags)
    else
      -- no match through end of input
      some (0, { flags with skipComment := true })

/-- The length of the construct whose `<` stands before `pos`, the flags after it, and whether
it is a comment. -/
def scanInlineHtml (data : List UInt8) (pos : ℕ) (flags : HtmlFlags) : ℕ × HtmlFlags × Bool :=
  if pos + 2 ≤ data.length then
    let c := byteAt data pos
    if c = 0x21 ∧ flags.skipComment = false then
      let c := byteAt data (pos + 1)
      match commentScanHtml data pos flags with
      | some (matchlen, flags) => (matchlen, flags, 0 < matchlen)
      | none =>
        if c = 0x5b then
          if flags.skipCdata = false then
            let matchlen := scanPattern cdata data (pos + 2)
            if 0 < matchlen then
              let matchlen := matchlen + 5
              if data.length < pos + matchlen then
                (0, { flags with skipCdata := true }, false)
              else
                (matchlen, flags, false)
            else
              (matchlen, flags, false)
          else
            (0, flags, false)
        else if flags.skipDeclaration = false then
          let matchlen := scanPattern declaration data (pos + 1)
          if 0 < matchlen then
            let matchlen := matchlen + 2
            if data.length < pos + matchlen then
              (0, { flags with skipDeclaration := true }, false)
            else
              (matchlen, flags, false)
          else
            (matchlen, flags, false)
        else
          (0, flags, false)
    else if c = 0x3f then
      if flags.skipPi = false then
        -- an empty match is allowed
        let matchlen := scanPattern processinginstruction data (pos + 1) + 3
        if data.length < pos + matchlen then
          (0, { flags with skipPi := true }, false)
        else
          (matchlen, flags, false)
      else
        (0, flags, false)
    else
      (scanPattern htmltag data pos, flags, false)
  else
    (0, flags, false)

/-! ### What the grammar says -/

/-- The constructs with a closer of their own. -/
inductive Construct where
  | comment
  | instruction
  | cdata
  | declaration
  deriving DecidableEq

def isLetter (c : UInt8) : Bool := letters.any fun r => r.1 ≤ c && c ≤ r.2

/-- The bytes `cs` stand at a position. -/
def startsWith (cs data : List UInt8) (pos : ℕ) : Bool := cs.isPrefixOf (data.drop pos)

/-- The construct whose opener, behind its `<`, stands at a position. -/
def constructAt (data : List UInt8) (pos : ℕ) : Option Construct :=
  if startsWith [0x21, 0x2d, 0x2d] data pos then some .comment
  else if startsWith [0x21, 0x5b, 0x43, 0x44, 0x41, 0x54, 0x41, 0x5b] data pos then some .cdata
  else if byteAt data pos = 0x21 ∧ isLetter (byteAt data (pos + 1)) then some .declaration
  else if byteAt data pos = 0x3f then some .instruction
  else none

/-- The first place from `start` on where the bytes of a closer stand. -/
def firstCloser (closer data : List UInt8) (start : ℕ) : Option ℕ :=
  (List.range' start (data.length - start)).find? fun pos => startsWith closer data pos

/-- The position behind a construct: the short comments, or the first closer behind the
opener. -/
def constructEnd (data : List UInt8) (pos : ℕ) : Construct → Option ℕ
  | .comment =>
    if startsWith [0x3e] data (pos + 3) then some (pos + 4)
    else if startsWith [0x2d, 0x3e] data (pos + 3) then some (pos + 5)
    else (firstCloser [0x2d, 0x2d, 0x3e] data (pos + 3)).map (· + 3)
  | .instruction => (firstCloser [0x3f, 0x3e] data (pos + 1)).map (· + 2)
  | .cdata => (firstCloser [0x5d, 0x5d, 0x3e] data (pos + 8)).map (· + 3)
  | .declaration => (firstCloser [0x3e] data (pos + 2)).map (· + 1)

/-- The length a scan answers for a construct, `0` for no match. -/
def lengthTo (pos : ℕ) : Option ℕ → ℕ
  | none => 0
  | some e => e - pos

/-- An answer is the one the grammar defines, if a construct begins there. -/
def Grammatical (data : List UInt8) (pos answer : ℕ) : Prop :=
  ∀ c, constructAt data pos = some c → answer = lengthTo pos (constructEnd data pos c)

/-! ### What the code reaches -/

/-- The position behind the closer the scanner of a construct finds. -/
def reached (data : List UInt8) (pos : ℕ) : Construct → Option ℕ
  | .comment =>
    if startsWith [0x3e] data (pos + 3) then some (pos + 4)
    else if startsWith [0x2d, 0x3e] data (pos + 3) then some (pos + 5)
    else ((bodyScanner 0x2d 2 data).search data.length (pos + 3)).map (· + 3)
  | .instruction => ((bodyScanner 0x3f 1 data).search data.length (pos + 1)).map (· + 2)
  | .cdata => ((bodyScanner 0x5d 2 data).search data.length (pos + 8)).map (· + 3)
  | .declaration => (firstCloser [0x3e] data (pos + 2)).map (· + 1)

/-- Whether the flags keep a construct from being looked at. -/
def HtmlFlags.skips (flags : HtmlFlags) : Construct → Bool
  | .comment => flags.skipComment
  | .instruction => flags.skipPi
  | .cdata => flags.skipComment || flags.skipCdata
  | .declaration => flags.skipComment || flags.skipDeclaration

/-- The flag of a construct that has not closed. -/
def HtmlFlags.set (flags : HtmlFlags) : Construct → HtmlFlags
  | .comment => { flags with skipComment := true }
  | .instruction => { flags with skipPi := true }
  | .cdata => { flags with skipCdata := true }
  | .declaration => { flags with skipDeclaration := true }

lemma startsWith_iff {cs data : List UInt8} {pos : ℕ} :
    startsWith cs data pos = true ↔ ∃ rest, data.drop pos = cs ++ rest := by
  rw [startsWith, List.isPrefixOf_iff_prefix]
  constructor
  · rintro ⟨rest, hrest⟩
    exact ⟨rest, hrest.symm⟩
  · rintro ⟨rest, hrest⟩
    exact ⟨rest, hrest.symm⟩

lemma byteAt_eq_drop (data : List UInt8) (pos i : ℕ) :
    byteAt data (pos + i) = (data.drop pos).getD i 0 := by
  simp [byteAt, List.getD_eq_getElem?_getD]

/-- Bytes that stand at a position are there one by one. -/
lemma byteAt_of_startsWith {cs data : List UInt8} {pos i : ℕ}
    (h : startsWith cs data pos = true) (hi : i < cs.length) :
    byteAt data (pos + i) = cs.getD i 0 := by
  obtain ⟨rest, hrest⟩ := startsWith_iff.mp h
  rw [byteAt_eq_drop, hrest]
  simp [List.getD_eq_getElem?_getD, List.getElem?_append_left hi]

lemma startsWith_cons {c : UInt8} {cs data : List UInt8} {pos : ℕ} (hc : c ≠ 0) :
    startsWith (c :: cs) data pos = true ↔
      byteAt data pos = c ∧ startsWith cs data (pos + 1) = true := by
  constructor
  · intro h
    have hfirst := byteAt_of_startsWith (i := 0) h (by simp)
    obtain ⟨rest, hrest⟩ := startsWith_iff.mp h
    refine ⟨by simpa using hfirst, startsWith_iff.mpr ⟨rest, ?_⟩⟩
    rw [← List.drop_drop, hrest]
    rfl
  · rintro ⟨hbyte, h⟩
    obtain ⟨rest, hrest⟩ := startsWith_iff.mp h
    have hlt := lt_of_byteAt hbyte hc
    refine startsWith_iff.mpr ⟨rest, ?_⟩
    rw [List.drop_eq_getElem_cons hlt, hrest]
    rw [byteAt, List.getD_eq_getElem?_getD, List.getElem?_eq_getElem hlt,
      Option.getD_some] at hbyte
    rw [hbyte]
    rfl

@[simp] lemma startsWith_nil (data : List UInt8) (pos : ℕ) : startsWith [] data pos = true := by
  simp [startsWith]

lemma firstCloser_eq_some {closer data : List UInt8} {start e : ℕ} :
    firstCloser closer data start = some e ↔
      start ≤ e ∧ e < data.length ∧ startsWith closer data e = true ∧
        ∀ pos, start ≤ pos → pos < e → startsWith closer data pos = false := by
  rw [firstCloser, List.find?_range'_eq_some]
  simp only [List.mem_range'_1, Bool.not_eq_true']
  constructor
  · rintro ⟨hcloses, ⟨hle, hlt⟩, hfirst⟩
    exact ⟨hle, by omega, hcloses, hfirst⟩
  · rintro ⟨hle, hlt, hcloses, hfirst⟩
    exact ⟨hcloses, ⟨hle, by omega⟩, hfirst⟩

lemma firstCloser_eq_none {closer data : List UInt8} {start : ℕ} (hne : closer ≠ []) :
    firstCloser closer data start = none ↔
      ∀ pos, start ≤ pos → startsWith closer data pos = false := by
  rw [firstCloser, List.find?_range'_eq_none]
  constructor
  · intro hnone pos hle
    by_cases hlt : pos < data.length
    · simpa using hnone pos hle (by omega)
    · have hnil : data.drop pos = [] := List.drop_eq_nil_of_le (by omega)
      rw [startsWith, hnil]
      cases closer with
      | nil => exact absurd rfl hne
      | cons c cs => rfl
  · intro hnone pos hle _
    simp [hnone pos hle]

end MarkdownCore.Inline
