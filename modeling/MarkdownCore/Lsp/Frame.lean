import MarkdownCore.Heading.Suffix
import MarkdownCore.Text.Lines

/-!
# Message framing

The protocol's base framing: a header of lines, an empty line, and a body of as many bytes as the
header's Content-Length names. A stream is read as the bytes left of it. The lengths a header
names are computed in 64 bits; `wrap` stands for what a computation past them does, and nothing
the reader does depends on it (`frameRead_wrap`).
-/

namespace MarkdownCore.Lsp

open Text

/-- `FRAME_LINE`: the longest header line read. -/
def frameLine : ℕ := 1024

/-- `FRAME_BODY`: the largest body, 6 GiB. -/
def frameBody : ℕ := 6 * 2 ^ 30

/-- What `read_line` gives: `-1`, `-2`, or a line without its terminator. -/
inductive LineRead where
  | atEnd
  | malformed
  | line (bytes : List UInt8)

/-- `read_line`, with the bytes of the line read so far. -/
def readLine : List UInt8 → List UInt8 → LineRead × List UInt8
  | line, [] => (if line = [] then .atEnd else .malformed, [])
  | line, byte :: rest =>
    if byte = lineFeed then
      (if line.getLast? = some carriageReturn then .line line.dropLast else .malformed, rest)
    else if line.length = frameLine then (.malformed, rest)
    else readLine (line ++ [byte]) rest

/-- An ASCII letter in lower case. -/
def lower (letter : UInt8) : UInt8 := if 65 ≤ letter ∧ letter ≤ 90 then letter + 32 else letter

/-- `content-length`. -/
def lengthName : List UInt8 := [99, 111, 110, 116, 101, 110, 116, 45, 108, 101, 110, 103, 116, 104]

/-- The line is a field of a name: `named`. -/
def named (line name : List UInt8) : Bool :=
  (line)[name.length]? == some 58 && (line.take name.length).map lower == name

/-- What stands in a content-length line after the name, the colon and any spaces. -/
def lengthText (line : List UInt8) : List UInt8 :=
  (line.drop (lengthName.length + 1)).dropWhile (· == 32)

/-- The digits of a length, each read while the length is within the largest body. -/
def readDigits (wrap : ℕ → ℕ) : List UInt8 → ℕ → Option ℕ
  | [], size => some size
  | digit :: digits, size =>
    if ¬ isDigit digit ∨ frameBody < size then none
    else readDigits wrap digits (wrap (size * 10 + (digit.toNat - 48)))

/-- The length a content-length line names. -/
def contentLength (wrap : ℕ → ℕ) (line : List UInt8) : Option ℕ :=
  if lengthText line = [] then none else readDigits wrap (lengthText line) 0

/-- What the header loop of `frame_read` ends with. -/
inductive HeaderRead where
  | ended
  | broken
  | done (sized : Option ℕ)

/-- The header loop of `frame_read`. The second argument bounds the lines read. -/
def readHeader (wrap : ℕ → ℕ) : ℕ → Bool → Option ℕ → List UInt8 → HeaderRead × List UInt8
  | 0, _, _, input => (.broken, input)
  | fuel + 1, first, sized, input =>
    match readLine [] input with
    | (.atEnd, rest) => (if first then .ended else .broken, rest)
    | (.malformed, rest) => (.broken, rest)
    | (.line line, rest) =>
      if line = [] then (.done sized, rest)
      else if named line lengthName then
        match contentLength wrap line with
        | none => (.broken, rest)
        | some size => readHeader wrap fuel false (some size) rest
      else readHeader wrap fuel false sized rest

/-- What `frame_read` gives: `FRAME_OK` with a body, `FRAME_END` or `FRAME_BROKEN`. -/
inductive FrameRead where
  | ok (body : List UInt8)
  | ended
  | broken

/-- `frame_read` into a frame of a capacity: what it gives, the capacity after and the stream
left. -/
def frameRead (wrap : ℕ → ℕ) (storage : ℕ → Bool) (capacity : ℕ) (input : List UInt8) :
    FrameRead × ℕ × List UInt8 :=
  match readHeader wrap (input.length + 1) true none input with
  | (.ended, rest) => (.ended, capacity, rest)
  | (.broken, rest) => (.broken, capacity, rest)
  | (.done none, rest) => (.broken, capacity, rest)
  | (.done (some size), rest) =>
    if frameBody < size ∨ 2 ^ 64 - 1 < size then (.broken, capacity, rest)
    else if capacity < size ∧ ¬ storage size then (.broken, capacity, rest)
    else if rest.length < size then (.broken, max capacity size, [])
    else (.ok (rest.take size), max capacity size, rest.drop size)

/-- `Content-Length: `. -/
def lengthField : List UInt8 :=
  [67, 111, 110, 116, 101, 110, 116, 45, 76, 101, 110, 103, 116, 104, 58, 32]

/-- The end of a header line. -/
def lineEnd : List UInt8 := [carriageReturn, lineFeed]

/-- `frame_write`. -/
def frameWrite (body : List UInt8) : List UInt8 :=
  lengthField ++ decimal body.length ++ lineEnd ++ lineEnd ++ body

/-- The messages read from a stream, one call after another. -/
def readFrames (wrap : ℕ → ℕ) (storage : ℕ → Bool) : ℕ → ℕ → List UInt8 → List FrameRead
  | 0, _, _ => []
  | calls + 1, capacity, input =>
    let read := frameRead wrap storage capacity input
    read.1 :: readFrames wrap storage calls read.2.1 read.2.2

/-! ### A line -/

/-- What a line that is not read to its end has taken from the stream. -/
structure Part (bytes : List UInt8) : Prop where
  one_line : ∀ b ∈ bytes.dropLast, b ≠ lineFeed
  length_le : bytes.length ≤ frameLine + 1

/-- A header line: no longer than is read, and on one line. -/
structure HeaderLine (line : List UInt8) : Prop where
  no_feed : ∀ b ∈ line, b ≠ lineFeed
  length_lt : line.length < frameLine

/-- What `read_line` gives of a stream, some bytes of the line being read: a line is what the stream
holds up to the terminator, and otherwise no more than a line is taken. -/
inductive ReadsLine (line input : List UInt8) : LineRead × List UInt8 → Prop
  | atEnd (hline : line = []) (hinput : input = []) : ReadsLine line input (.atEnd, [])
  | malformed (read : List UInt8) {rest : List UInt8} (hinput : input = read ++ rest)
    (hpart : Part (line ++ read)) : ReadsLine line input (.malformed, rest)
  | line (read : List UInt8) {bytes rest : List UInt8} (hinput : input = read ++ rest)
    (hbytes : line ++ read = bytes ++ lineEnd) (hline : HeaderLine bytes) :
    ReadsLine line input (.line bytes, rest)

lemma part_append_singleton {line : List UInt8} (hfeed : ∀ b ∈ line, b ≠ lineFeed)
    (hlength : line.length ≤ frameLine) (b : UInt8) : Part (line ++ [b]) := by
  constructor
  · rw [List.dropLast_concat]
    exact hfeed
  · rw [List.length_append]
    exact Nat.succ_le_succ hlength

lemma readLine_spec {line input : List UInt8} (hfeed : ∀ b ∈ line, b ≠ lineFeed)
    (hlength : line.length ≤ frameLine) : ReadsLine line input (readLine line input) := by
  induction input generalizing line with
  | nil =>
    rw [readLine]
    split
    next hline => exact ReadsLine.atEnd hline rfl
    next =>
      refine ReadsLine.malformed [] rfl ⟨?_, ?_⟩
      · rw [List.append_nil]
        exact fun b hb => hfeed b (List.mem_of_mem_dropLast hb)
      · rw [List.append_nil]
        exact hlength.trans (Nat.le_succ _)
  | cons byte input ih =>
    rw [readLine]
    split
    next heq =>
      subst heq
      split
      next hreturn =>
        have hsplit : line.dropLast ++ [carriageReturn] = line :=
          List.dropLast_append_getLast? carriageReturn hreturn
        have hlast : line.dropLast.length + 1 = line.length := by
          rw [← congrArg List.length hsplit, List.length_append]
          rfl
        refine ReadsLine.line [lineFeed] rfl ?_ ⟨?_, by omega⟩
        · have hend : lineEnd = [carriageReturn] ++ [lineFeed] := rfl
          rw [hend, ← List.append_assoc, hsplit]
        · exact fun b hb => hfeed b (List.mem_of_mem_dropLast hb)
      next => exact ReadsLine.malformed [lineFeed] rfl (part_append_singleton hfeed hlength _)
    next hne =>
      split
      next => exact ReadsLine.malformed [byte] rfl (part_append_singleton hfeed hlength _)
      next hroom =>
        have hfeed' : ∀ b ∈ line ++ [byte], b ≠ lineFeed := by
          intro b hb
          rcases List.mem_append.mp hb with hin | hin
          · exact hfeed b hin
          · exact List.mem_singleton.mp hin ▸ hne
        have hlength' : (line ++ [byte]).length ≤ frameLine := by
          rw [List.length_append, List.length_singleton]
          omega
        have hread := ih hfeed' hlength'
        generalize readLine (line ++ [byte]) input = result at hread
        cases hread with
        | atEnd hline => exact absurd hline (by simp)
        | malformed read hinput hpart =>
          refine ReadsLine.malformed (byte :: read) (by rw [hinput]; rfl) ?_
          rwa [List.append_assoc] at hpart
        | line read hinput hbytes hline =>
          refine ReadsLine.line (byte :: read) (by rw [hinput]; rfl) ?_ hline
          rwa [List.append_assoc] at hbytes

/-- A header line written is the line read. -/
lemma readLine_append {bytes : List UInt8} (hfeed : ∀ b ∈ bytes, b ≠ lineFeed)
    {line : List UInt8} (hlength : line.length + bytes.length < frameLine) (rest : List UInt8) :
    readLine line (bytes ++ lineEnd ++ rest) = (.line (line ++ bytes), rest) := by
  induction bytes generalizing line with
  | nil =>
    have hne : carriageReturn ≠ lineFeed := by decide
    rw [List.length_nil] at hlength
    rw [List.nil_append, lineEnd, List.cons_append, readLine, if_neg hne, if_neg (by omega),
      List.singleton_append, readLine, if_pos rfl, List.getLast?_concat, if_pos rfl,
      List.dropLast_concat, List.append_nil]
  | cons byte bytes ih =>
    rw [List.length_cons] at hlength
    rw [List.cons_append, List.cons_append, readLine, if_neg (hfeed byte List.mem_cons_self),
      if_neg (by omega), ih (fun b hb => hfeed b (List.mem_cons_of_mem _ hb)) (by
        rw [List.length_append, List.length_singleton]
        omega),
      List.append_assoc, List.singleton_append]

/-! ### A length -/

/-- A computation that is right below `2 ^ 64` makes no difference to the digits read. -/
lemma readDigits_wrap {wrap : ℕ → ℕ} (hwrap : ∀ n < 2 ^ 64, wrap n = n) (digits : List UInt8)
    (size : ℕ) : readDigits wrap digits size = readDigits id digits size := by
  induction digits generalizing size with
  | nil => rfl
  | cons digit digits ih =>
    rw [readDigits, readDigits]
    split
    next => rfl
    next hgo =>
      rw [not_or, not_not, isDigit, Bool.and_eq_true, decide_eq_true_eq, decide_eq_true_eq,
        frameBody] at hgo
      rw [hwrap _ (by omega), ih]
      rfl

lemma contentLength_wrap {wrap : ℕ → ℕ} (hwrap : ∀ n < 2 ^ 64, wrap n = n)
    (line : List UInt8) : contentLength wrap line = contentLength id line := by
  rw [contentLength, contentLength, readDigits_wrap hwrap]

lemma readHeader_wrap {wrap : ℕ → ℕ} (hwrap : ∀ n < 2 ^ 64, wrap n = n) (fuel : ℕ)
    (first : Bool) (sized : Option ℕ) (input : List UInt8) :
    readHeader wrap fuel first sized input = readHeader id fuel first sized input := by
  induction fuel generalizing first sized input with
  | zero => rfl
  | succ fuel ih => simp only [readHeader, contentLength_wrap hwrap, ih]

/-- No length the reader computes reaches `2 ^ 64`. -/
theorem frameRead_wrap {wrap : ℕ → ℕ} (hwrap : ∀ n < 2 ^ 64, wrap n = n)
    (storage : ℕ → Bool) (capacity : ℕ) (input : List UInt8) :
    frameRead wrap storage capacity input = frameRead id storage capacity input := by
  rw [frameRead, frameRead, readHeader_wrap hwrap]

/-- Digits read are the number they spell. -/
lemma readDigits_eq {digits : List UInt8} {size n : ℕ} (hread : readDigits id digits size = some n) :
    (∀ c ∈ digits, isDigit c = true) ∧
      n = digits.foldl (fun suffix c => suffix * 10 + (c.toNat - 48)) size := by
  induction digits generalizing size with
  | nil =>
    cases hread
    exact ⟨by simp, rfl⟩
  | cons digit digits ih =>
    rw [readDigits] at hread
    split at hread
    next => exact absurd hread (by simp)
    next hgo =>
      rw [not_or, not_not] at hgo
      obtain ⟨hdigits, hn⟩ := ih hread
      refine ⟨?_, hn⟩
      rw [List.forall_mem_cons]
      exact ⟨hgo.1, hdigits⟩

lemma le_foldl_digits (digits : List UInt8) (size : ℕ) :
    size ≤ digits.foldl (fun suffix c => suffix * 10 + (c.toNat - 48)) size := by
  induction digits generalizing size with
  | nil => exact le_refl _
  | cons digit digits ih =>
    rw [List.foldl_cons]
    refine le_trans ?_ (ih _)
    omega

/-- The digits of a length within the largest body are read. -/
lemma readDigits_of_le {digits : List UInt8} {size : ℕ} (hdigits : ∀ c ∈ digits, isDigit c = true)
    (hle : digits.foldl (fun suffix c => suffix * 10 + (c.toNat - 48)) size ≤ frameBody) :
    readDigits id digits size =
      some (digits.foldl (fun suffix c => suffix * 10 + (c.toNat - 48)) size) := by
  induction digits generalizing size with
  | nil => rfl
  | cons digit digits ih =>
    rw [List.forall_mem_cons] at hdigits
    rw [List.foldl_cons] at hle ⊢
    have hsize := (le_foldl_digits digits (size * 10 + (digit.toNat - 48))).trans hle
    rw [readDigits, if_neg]
    · exact ih hdigits.2 hle
    · rw [not_or, not_not]
      exact ⟨hdigits.1, by omega⟩

lemma length_decimal_le {n k : ℕ} (hk : 0 < k) (hn : n < 10 ^ k) : (decimal n).length ≤ k := by
  induction k generalizing n with
  | zero => exact absurd hk (lt_irrefl 0)
  | succ k ih =>
    rcases Nat.lt_or_ge n 10 with hlt | hge
    · rw [decimal_of_lt hlt]
      exact hk
    · rw [decimal_of_le hge, List.length_append]
      have hkpos : 0 < k := by
        rcases Nat.eq_zero_or_pos k with rfl | hpos
        · rw [Nat.zero_add, Nat.pow_one] at hn
          omega
        · exact hpos
      rw [Nat.pow_succ] at hn
      exact Nat.succ_le_succ (ih hkpos (by omega))

/-! ### A header -/

/-- The bytes of the lines of a header. -/
def headerBytes (lines : List (List UInt8)) : List UInt8 := lines.flatMap (· ++ lineEnd)

/-- The length that lines name, after a length named before them: the last of the two. -/
def declaredFrom (sized : Option ℕ) (lines : List (List UInt8)) : Option ℕ :=
  lines.foldl (fun sized line =>
    if named line lengthName then some (digitsValue (lengthText line)) else sized) sized

/-- The length a header names: the number of its last content-length line. -/
def declared (lines : List (List UInt8)) : Option ℕ := declaredFrom none lines

/-- A line of a header that is read on past: not the empty one, and with a number after its name
where it names the length. -/
structure Field (line : List UInt8) : Prop where
  whole : HeaderLine line
  ne_nil : line ≠ []
  sized : named line lengthName = true →
    lengthText line ≠ [] ∧ ∀ c ∈ lengthText line, isDigit c = true

/-- What the header loop makes of a stream: it ends with the stream, after a part of a line, or
past the empty line. -/
inductive ReadsHeader (first : Bool) (sized : Option ℕ) (input : List UInt8) :
    HeaderRead × List UInt8 → Prop
  | ended (hfirst : first = true) (hinput : input = []) :
    ReadsHeader first sized input (.ended, [])
  | broken (lines : List (List UInt8)) (part : List UInt8) {rest : List UInt8}
    (hinput : input = headerBytes lines ++ part ++ rest) (hlines : ∀ line ∈ lines, Field line)
    (hpart : Part part) : ReadsHeader first sized input (.broken, rest)
  | done (lines : List (List UInt8)) {rest : List UInt8}
    (hinput : input = headerBytes lines ++ lineEnd ++ rest)
    (hlines : ∀ line ∈ lines, Field line) :
    ReadsHeader first sized input (.done (declaredFrom sized lines), rest)

lemma contentLength_eq {line : List UInt8} {size : ℕ} (h : contentLength id line = some size) :
    (lengthText line ≠ [] ∧ ∀ c ∈ lengthText line, isDigit c = true) ∧
      size = digitsValue (lengthText line) := by
  rw [contentLength] at h
  split at h
  next => exact absurd h (by simp)
  next hne =>
    obtain ⟨hdigits, hsize⟩ := readDigits_eq h
    exact ⟨⟨hne, hdigits⟩, hsize⟩

/-- A header read from its second line on, its first line before it. -/
lemma ReadsHeader.cons {first : Bool} {sized sized' : Option ℕ} {line rest : List UInt8}
    {result : HeaderRead × List UInt8} (hfield : Field line)
    (hsized : declaredFrom sized [line] = sized') (h : ReadsHeader false sized' rest result) :
    ReadsHeader first sized (line ++ lineEnd ++ rest) result := by
  have hfields : ∀ {lines : List (List UInt8)}, (∀ other ∈ lines, Field other) →
      ∀ other ∈ line :: lines, Field other := by
    intro lines hlines
    rw [List.forall_mem_cons]
    exact ⟨hfield, hlines⟩
  have hbytes : ∀ lines, headerBytes (line :: lines) = line ++ lineEnd ++ headerBytes lines :=
    fun lines => List.flatMap_cons
  cases h with
  | ended hfirst => exact absurd hfirst (by simp)
  | broken lines part hinput hlines hpart =>
    refine ReadsHeader.broken (line :: lines) part ?_ (hfields hlines) hpart
    rw [hbytes, hinput]
    simp only [List.append_assoc]
  | done lines hinput hlines =>
    have hdeclared : declaredFrom sized' lines = declaredFrom sized (line :: lines) := by
      rw [← hsized]
      rfl
    rw [hdeclared]
    refine ReadsHeader.done (line :: lines) ?_ (hfields hlines)
    rw [hbytes, hinput]
    simp only [List.append_assoc]

lemma HeaderLine.part {line : List UInt8} (h : HeaderLine line) : Part (line ++ lineEnd) := by
  have hlength := h.length_lt
  constructor
  · have hdrop : (line ++ lineEnd).dropLast = line ++ [carriageReturn] := by
      rw [List.dropLast_append_of_ne_nil (by decide)]
      rfl
    rw [hdrop]
    intro b hb
    rcases List.mem_append.mp hb with hin | hin
    · exact h.no_feed b hin
    · rw [List.mem_singleton.mp hin]
      decide
  · rw [List.length_append, lineEnd, List.length_cons, List.length_singleton]
    omega

lemma readHeader_spec {fuel : ℕ} {first : Bool} {sized : Option ℕ} {input : List UInt8}
    (hfuel : input.length < fuel) :
    ReadsHeader first sized input (readHeader id fuel first sized input) := by
  induction fuel generalizing first sized input with
  | zero => exact absurd hfuel (Nat.not_lt_zero _)
  | succ fuel ih =>
    have hread : ReadsLine [] input (readLine [] input) :=
      readLine_spec (by simp) (Nat.zero_le _)
    rw [readHeader]
    generalize readLine [] input = result at hread
    cases hread with
    | atEnd _ hinput =>
      cases first with
      | true => exact ReadsHeader.ended rfl hinput
      | false =>
        refine ReadsHeader.broken [] [] (by rw [hinput]; rfl) (by simp) ⟨by simp, Nat.zero_le _⟩
    | malformed read hinput hpart =>
      exact ReadsHeader.broken [] read (by rw [hinput]; rfl) (by simp) hpart
    | @line read bytes rest hinput hbytes hline =>
      rw [List.nil_append] at hbytes
      rw [hbytes] at hinput
      have hless : rest.length < fuel := by
        rw [hinput, List.length_append, List.length_append, lineEnd, List.length_cons] at hfuel
        omega
      dsimp only
      split
      next hnil =>
        subst hnil
        exact ReadsHeader.done [] hinput (by simp)
      next hne =>
        split
        next hnamed =>
          cases hlength : contentLength id bytes with
          | none => exact ReadsHeader.broken [] _ hinput (by simp) hline.part
          | some size =>
            obtain ⟨hsized, hsize⟩ := contentLength_eq hlength
            rw [hinput]
            refine ReadsHeader.cons ⟨hline, hne, fun _ => hsized⟩ ?_ (ih hless)
            rw [declaredFrom, List.foldl_cons, List.foldl_nil, if_pos hnamed, hsize]
        next hnamed =>
          rw [hinput]
          refine ReadsHeader.cons ⟨hline, hne, fun h => absurd h hnamed⟩ ?_ (ih hless)
          rw [declaredFrom, List.foldl_cons, List.foldl_nil, if_neg hnamed]

/-! ### A message -/

/-- What a call makes of a stream: nothing of an empty one; a header and the body it names; a part
of a header, no further than its first malformed line or its empty line; or a header and what there
is of a body that ends with the stream. -/
inductive ReadsFrame (input : List UInt8) : FrameRead → List UInt8 → Prop
  | ended (hinput : input = []) : ReadsFrame input .ended []
  | ok (lines : List (List UInt8)) {body rest : List UInt8}
    (hinput : input = headerBytes lines ++ lineEnd ++ body ++ rest)
    (hlines : ∀ line ∈ lines, Field line) (hdeclared : declared lines = some body.length)
    (hbody : body.length ≤ frameBody) : ReadsFrame input (.ok body) rest
  | header (lines : List (List UInt8)) (part : List UInt8) {rest : List UInt8}
    (hinput : input = headerBytes lines ++ part ++ rest) (hlines : ∀ line ∈ lines, Field line)
    (hpart : Part part) : ReadsFrame input .broken rest
  | body (lines : List (List UInt8)) (body : List UInt8) {size : ℕ}
    (hinput : input = headerBytes lines ++ lineEnd ++ body)
    (hlines : ∀ line ∈ lines, Field line) (hdeclared : declared lines = some size)
    (hsize : size ≤ frameBody) (hbody : body.length < size) : ReadsFrame input .broken []

/-- Every call ends, and takes no more than the header and the body it names. -/
lemma frameRead_spec (storage : ℕ → Bool) (capacity : ℕ) (input : List UInt8) :
    ReadsFrame input (frameRead id storage capacity input).1
      (frameRead id storage capacity input).2.2 := by
  have hempty : HeaderLine [] := ⟨by simp, by decide⟩
  have hpart : Part lineEnd := hempty.part
  have hread : ReadsHeader true none input (readHeader id (input.length + 1) true none input) :=
    readHeader_spec (Nat.lt_succ_self _)
  rw [frameRead]
  generalize readHeader id (input.length + 1) true none input = result at hread
  cases hread with
  | ended _ hinput => exact ReadsFrame.ended hinput
  | broken lines part hinput hlines hpart => exact ReadsFrame.header lines part hinput hlines hpart
  | @done lines rest hinput hlines =>
    cases hdeclared : declaredFrom none lines with
    | none => exact ReadsFrame.header lines lineEnd hinput hlines hpart
    | some size =>
      dsimp only
      split
      next => exact ReadsFrame.header lines lineEnd hinput hlines hpart
      next hsize =>
        rw [not_or, not_lt] at hsize
        split
        next => exact ReadsFrame.header lines lineEnd hinput hlines hpart
        next =>
          split
          next hshort => exact ReadsFrame.body lines rest hinput hlines hdeclared hsize.1 hshort
          next hlong =>
            have hlength : (rest.take size).length = size :=
              List.length_take_of_le (not_lt.mp hlong)
            refine ReadsFrame.ok lines ?_ hlines ?_ ?_
            · rw [hinput, List.append_assoc _ (rest.take size), List.take_append_drop]
            · rw [hlength]
              exact hdeclared
            · rw [hlength]
              exact hsize.1

/-- A message written is read back, and the stream after it is left. -/
lemma frameRead_frameWrite {storage : ℕ → Bool} (hstorage : ∀ n, storage n = true) (capacity : ℕ)
    {body : List UInt8} (hbody : body.length ≤ frameBody) (rest : List UInt8) :
    frameRead id storage capacity (frameWrite body ++ rest) =
      (.ok body, max capacity body.length, rest) := by
  set line := lengthField ++ decimal body.length
  have hdigits : ∀ c ∈ decimal body.length, isDigit c = true := fun c => isDigit_of_mem_decimal
  have hshort : (decimal body.length).length ≤ 10 := by
    refine length_decimal_le (by omega) (lt_of_le_of_lt hbody ?_)
    rw [frameBody]
    omega
  have hfield : ∀ b ∈ lengthField, b ≠ lineFeed := by simp [lengthField, lineFeed]
  have hfeed : ∀ b ∈ line, b ≠ lineFeed := by
    intro b hb
    rcases List.mem_append.mp hb with hin | hin
    · exact hfield b hin
    · rintro rfl
      exact absurd (hdigits _ hin) (by decide)
  have hlength : lengthField.length = 16 := rfl
  have hline : ([] : List UInt8).length + line.length < frameLine := by
    rw [List.length_nil, List.length_append, hlength, frameLine]
    omega
  have hnamed : named line lengthName = true := by
    have htake : line.take lengthName.length = lengthField.take lengthName.length :=
      List.take_append_of_le_length (by decide)
    have hget : (line)[lengthName.length]? = lengthField[lengthName.length]? :=
      List.getElem?_append_left (by decide)
    rw [named, htake, hget]
    decide
  have htext : lengthText line = decimal body.length := by
    have hdrop : line.drop (lengthName.length + 1) = 32 :: decimal body.length := by
      rw [List.drop_append_of_le_length (by decide)]
      rfl
    rw [lengthText, hdrop, List.dropWhile_cons_of_pos (by decide)]
    obtain ⟨c, digits, heq⟩ := List.exists_cons_of_ne_nil (decimal_ne_nil body.length)
    rw [heq, List.dropWhile_cons_of_neg]
    rintro hspace
    have hc := hdigits c (heq ▸ List.mem_cons_self)
    rw [eq_of_beq hspace] at hc
    exact absurd hc (by decide)
  have hsize : contentLength id line = some body.length := by
    have hvalue : (decimal body.length).foldl
        (fun suffix c => suffix * 10 + (c.toNat - 48)) 0 = body.length :=
      digitsValue_decimal body.length
    rw [contentLength, htext, if_neg (decimal_ne_nil _),
      readDigits_of_le hdigits (hvalue.trans_le hbody), hvalue]
  have hinput : frameWrite body ++ rest = line ++ lineEnd ++ (lineEnd ++ (body ++ rest)) := by
    rw [frameWrite]
    simp only [line, List.append_assoc]
  have hheader : ∀ fuel, readHeader id (fuel + 2) true none (frameWrite body ++ rest) =
      (.done (some body.length), body ++ rest) := by
    intro fuel
    have hempty : readLine [] ([] ++ lineEnd ++ (body ++ rest)) = (.line ([] ++ []), body ++ rest) :=
      readLine_append (by simp) (by decide) (body ++ rest)
    have hne : line ≠ [] := by
      intro hnil
      have := congrArg List.length hnil
      rw [List.length_append, hlength, List.length_nil] at this
      omega
    rw [hinput, readHeader, readLine_append hfeed hline, List.nil_append]
    dsimp only
    rw [if_neg hne, if_pos hnamed, hsize]
    dsimp only
    rw [List.nil_append, List.nil_append] at hempty
    rw [readHeader, hempty]
    rfl
  have hlong : ∃ fuel, (frameWrite body ++ rest).length + 1 = fuel + 2 := by
    refine ⟨(frameWrite body ++ rest).length - 1, ?_⟩
    rw [hinput]
    simp only [List.length_append, lineEnd, List.length_cons]
    omega
  obtain ⟨fuel, hfuel⟩ := hlong
  rw [frameRead, hfuel, hheader]
  dsimp only
  rw [if_neg, if_neg, if_neg, List.take_left, List.drop_left]
  · rw [List.length_append]
    omega
  · rw [hstorage]
    simp
  · rw [frameBody] at hbody ⊢
    omega

/-- Messages written one after another are read back in order, and then the stream ends. -/
lemma readFrames_frameWrite {storage : ℕ → Bool} (hstorage : ∀ n, storage n = true)
    {bodies : List (List UInt8)} (hbodies : ∀ body ∈ bodies, body.length ≤ frameBody)
    (capacity : ℕ) :
    readFrames id storage (bodies.length + 1) capacity (bodies.flatMap frameWrite) =
      bodies.map .ok ++ [.ended] := by
  induction bodies generalizing capacity with
  | nil => rfl
  | cons body bodies ih =>
    rw [List.forall_mem_cons] at hbodies
    rw [List.length_cons, List.flatMap_cons, readFrames,
      frameRead_frameWrite hstorage capacity hbodies.1]
    dsimp only
    rw [ih hbodies.2]
    rfl

lemma readFrames_wrap {wrap : ℕ → ℕ} (hwrap : ∀ n < 2 ^ 64, wrap n = n) (storage : ℕ → Bool)
    (calls capacity : ℕ) (input : List UInt8) :
    readFrames wrap storage calls capacity input = readFrames id storage calls capacity input := by
  induction calls generalizing capacity input with
  | zero => rfl
  | succ calls ih =>
    rw [readFrames, readFrames, frameRead_wrap hwrap, ih]

/-- Framing round-trips:

* bodies of at most 6 GiB written one after another are read back in order, and then the stream
  ends;
* of every stream a call takes at most a header and the body it names, and a body it gives is the
  named number of bytes after the empty line;
* the lengths computed in 64 bits are those computed without a bound, whatever a computation past
  `2 ^ 64` would give. -/
theorem frames_of_stream :
    (∀ (storage : ℕ → Bool) (bodies : List (List UInt8)) (capacity : ℕ),
      (∀ n, storage n = true) → (∀ body ∈ bodies, body.length ≤ 6 * 2 ^ 30) →
      readFrames (· % 2 ^ 64) storage (bodies.length + 1) capacity (bodies.flatMap frameWrite) =
        bodies.map .ok ++ [.ended]) ∧
    (∀ (storage : ℕ → Bool) (capacity : ℕ) (input : List UInt8),
      ReadsFrame input (frameRead (· % 2 ^ 64) storage capacity input).1
        (frameRead (· % 2 ^ 64) storage capacity input).2.2) ∧
    ∀ (wrap : ℕ → ℕ), (∀ n < 2 ^ 64, wrap n = n) →
      ∀ (storage : ℕ → Bool) (capacity : ℕ) (input : List UInt8),
        frameRead wrap storage capacity input = frameRead id storage capacity input := by
  have hmod : ∀ n < 2 ^ 64, n % 2 ^ 64 = n := fun n hn => Nat.mod_eq_of_lt hn
  refine ⟨fun storage bodies capacity hstorage hbodies => ?_, fun storage capacity input => ?_,
    fun wrap hwrap storage capacity input => frameRead_wrap hwrap storage capacity input⟩
  · rw [readFrames_wrap hmod]
    exact readFrames_frameWrite hstorage hbodies capacity
  · rw [frameRead_wrap hmod]
    exact frameRead_spec storage capacity input

end MarkdownCore.Lsp
