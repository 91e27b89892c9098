import MarkdownCore.Inline.Opaque

/-!
# The members of an attribute container

A container runs from its brace to the brace that closes it, member by member: a lone dash, an
identifier, a class, a bare name, or a name with a value, which is quoted when the quote it
starts with is closed before a blank line. Whether a container closes from the boundary between
two members depends on the text behind the boundary alone.
-/

namespace MarkdownCore.Attributes

open Inline

/-! ### Bytes -/

/-- `BYTE_SPACE`. -/
def horizontal (c : UInt8) : Bool := c = 0x20 || c = 0x09

/-- `BYTE_NEWLINE`. -/
def newline (c : UInt8) : Bool := c = 0x0a || c = 0x0d

/-- `BYTE_QUOTE`. -/
def isQuote (c : UInt8) : Bool := c = 0x22 || c = 0x27

/-- `BYTE_NAME_END`: whitespace, a brace, a quote or `=`. -/
def nameTerminator (c : UInt8) : Bool :=
  horizontal c || newline c || c = 0x7d || c = 0x7b || isQuote c || c = 0x3d

/-- `BYTE_VALUE_END`: whitespace or the closing brace. -/
def valueEnd (c : UInt8) : Bool := horizontal c || newline c || c = 0x7d

/-- A backslash before punctuation. -/
def escaped (data : List UInt8) (pos : ℕ) : Bool :=
  byteAt data pos = 0x5c && pos + 1 < data.length && ispunct (byteAt data (pos + 1))

lemma escaped_iff {data : List UInt8} {pos : ℕ} : escaped data pos = true ↔
    byteAt data pos = 0x5c ∧ pos + 1 < data.length ∧ ispunct (byteAt data (pos + 1)) = true := by
  rw [escaped, Bool.and_eq_true, Bool.and_eq_true, decide_eq_true_eq, decide_eq_true_eq, and_assoc]

/-- What may follow a bare name or the dash. -/
def memberBoundary (data : List UInt8) (pos : ℕ) : Bool :=
  data.length ≤ pos || valueEnd (byteAt data pos)

lemma valueEnd_nameTerminator {c : UInt8} (h : valueEnd c = true) : nameTerminator c = true := by
  simp only [valueEnd, Bool.or_eq_true] at h
  simp only [nameTerminator, Bool.or_eq_true]
  rcases h with (h | h) | h
  · exact Or.inl (Or.inl (Or.inl (Or.inl (Or.inl h))))
  · exact Or.inl (Or.inl (Or.inl (Or.inl (Or.inr h))))
  · exact Or.inl (Or.inl (Or.inl (Or.inr h)))

lemma isQuote_nameTerminator {c : UInt8} (h : isQuote c = true) : nameTerminator c = true := by
  simp [nameTerminator, h]

lemma valueEnd_ne_assign {c : UInt8} (h : valueEnd c = true) : c ≠ 0x3d := by
  rintro rfl
  simp [valueEnd, horizontal, newline] at h

/-! ### Scanners -/

/-- `scan_name`. -/
def scanName (data : List UInt8) (pos : ℕ) : ℕ :=
  pos + width (fun c => !nameTerminator c) data pos

/-- The loop over spaces and tabs. -/
def skipHorizontal (data : List UInt8) (pos : ℕ) : ℕ := pos + width horizontal data pos

/-- Behind the line ending at a position, the LF of a CRLF with it. -/
def behindLine (data : List UInt8) (pos : ℕ) : ℕ :=
  if byteAt data pos = 0x0d ∧ pos + 1 < data.length ∧ byteAt data (pos + 1) = 0x0a then pos + 2
  else pos + 1

/-- The start of the next line, behind its spaces and tabs. -/
def nextLine (data : List UInt8) (pos : ℕ) : ℕ := skipHorizontal data (behindLine data pos)

/-- A blank line follows the line ending at a position. -/
def beforeBlank (data : List UInt8) (pos : ℕ) : Bool :=
  nextLine data pos < data.length && newline (byteAt data (nextLine data pos))

lemma le_scanName (data : List UInt8) (pos : ℕ) : pos ≤ scanName data pos := Nat.le_add_right _ _

lemma le_skipHorizontal (data : List UInt8) (pos : ℕ) : pos ≤ skipHorizontal data pos :=
  Nat.le_add_right _ _

lemma lt_behindLine (data : List UInt8) (pos : ℕ) : pos < behindLine data pos := by
  unfold behindLine
  split <;> omega

lemma lt_nextLine (data : List UInt8) (pos : ℕ) : pos < nextLine data pos :=
  lt_of_lt_of_le (lt_behindLine data pos) (le_skipHorizontal _ _)

/-- The units of a quoted value: an escape, a line ending with the spaces and tabs behind it, or a
byte. The quote closes it, and so does a blank line. -/
def quotedUnits (data : List UInt8) (quote : UInt8) : Scanner where
  width pos :=
    if escaped data pos then 2
    else if newline (byteAt data pos) then nextLine data pos - pos
    else 1
  closes pos := byteAt data pos = quote ||
    (!escaped data pos && newline (byteAt data pos) && beforeBlank data pos)
  width_pos pos := by
    have := lt_nextLine data pos
    split_ifs <;> omega

lemma escape_width_pos (data : List UInt8) (pos : ℕ) : 0 < if escaped data pos then 2 else 1 := by
  split <;> decide

/-- The units of an unquoted value: an escape or a byte. A value end closes it. -/
def unquotedUnits (data : List UInt8) : Scanner where
  width pos := if escaped data pos then 2 else 1
  closes pos := valueEnd (byteAt data pos)
  width_pos := escape_width_pos data

/-- `quote_close`: the first unescaped quote of the kind at `opening` behind it, or the length when
a blank line or the end comes first. -/
def quoteClose (data : List UInt8) (opening : ℕ) : ℕ :=
  match (quotedUnits data (byteAt data opening)).search data.length (opening + 1) with
  | some pos => if byteAt data pos = byteAt data opening then pos else data.length
  | none => data.length

/-- Where an unquoted value that starts at `pos` ends. -/
def unquotedStop (data : List UInt8) (pos : ℕ) : ℕ :=
  ((unquotedUnits data).search data.length pos).getD data.length

/-! ### Members -/

/-- The bytes from `start` to before `stop`. -/
structure Span where
  start : ℕ
  stop : ℕ
  deriving DecidableEq, Repr

inductive Member where
  | unnumbered (pos : ℕ)
  | identifier (name : Span)
  | className (name : Span)
  | bare (name : Span)
  | record (name value : Span) (quoted : Bool)
  deriving DecidableEq, Repr

/-- What the first byte of a member leads to: the end of the walk, a member and the boundary behind
it, or the `=` of an assignment. -/
inductive Dispatch where
  | last (finish : Option ℕ)
  | member (m : Member) (next : ℕ)
  | assignment (e : ℕ)

/-- The switch on the first byte of a member, and the name behind it. -/
def dispatch (data : List UInt8) (b : ℕ) : Dispatch :=
  let c := byteAt data b
  if c = 0x7d then .last (some (b + 1))
  else if c = 0x3d ∨ c = 0x22 ∨ c = 0x27 ∨ c = 0x7b then .last none
  else if c = 0x2d ∧ memberBoundary data (b + 1) then .member (.unnumbered b) (b + 1)
  else if c = 0x23 ∨ c = 0x2e then
    if b + 1 < data.length ∧ ¬ nameTerminator (byteAt data (b + 1)) then
      let e := scanName data (b + 1)
      .member (if c = 0x23 then .identifier ⟨b + 1, e⟩ else .className ⟨b + 1, e⟩) e
    else .last none
  else
    let e := scanName data (b + 1)
    if data.length ≤ e ∨ byteAt data e ≠ 0x3d then
      if memberBoundary data e then .member (.bare ⟨b, e⟩) e else .last none
    else .assignment e

/-- Whether a quote starts the value of the `=` at `e`. -/
def quoteLed (data : List UInt8) (e : ℕ) : Bool :=
  e + 1 < data.length && isQuote (byteAt data (e + 1))

/-- The closer of the value of the `=` at `e`, the length when it has none. -/
def valueClose (data : List UInt8) (e : ℕ) : ℕ :=
  if quoteLed data e then quoteClose data (e + 1) else data.length

/-- The value of the `=` at `e`, whether it is quoted, and the boundary behind it. A closer at the
very end is a byte of an unquoted value. -/
def assigned (data : List UInt8) (e : ℕ) : Span × Bool × ℕ :=
  if valueClose data e + 1 < data.length then
    (⟨e + 2, valueClose data e⟩, true, valueClose data e + 1)
  else (⟨e + 1, unquotedStop data (e + 1)⟩, false, unquotedStop data (e + 1))

/-- The walk from a boundary over the whitespace there: the boundary behind it, none for a blank
line. -/
def skipGap (data : List UInt8) (b : ℕ) : Option ℕ :=
  let b := skipHorizontal data b
  if b < data.length ∧ newline (byteAt data b) then
    if beforeBlank data b then none else some (nextLine data b)
  else some b

/-- What a boundary leads to. -/
inductive Outcome where
  | last (finish : Option ℕ)
  | gap (next : ℕ)
  | member (m : Member) (next : ℕ)

/-- Behind whitespace. -/
def Outcome.ofGap : Option ℕ → Outcome
  | some next => .gap next
  | none => .last none

/-- At the first byte of a member. -/
def Outcome.ofDispatch (data : List UInt8) (b : ℕ) : Dispatch → Outcome
  | .last finish => .last finish
  | .member m next => .member m next
  | .assignment e =>
    .member (.record ⟨b, e⟩ (assigned data e).1 (assigned data e).2.1) (assigned data e).2.2

/-- A boundary, read without a memo. -/
def outcome (data : List UInt8) (b : ℕ) : Outcome :=
  if data.length ≤ b then .last none
  else if horizontal (byteAt data b) || newline (byteAt data b) then .ofGap (skipGap data b)
  else .ofDispatch data b (dispatch data b)

/-- From a boundary these members are read, and the container ends so. -/
inductive Reads (data : List UInt8) : ℕ → List Member → Option ℕ → Prop
  | last {b : ℕ} {finish : Option ℕ} (h : outcome data b = .last finish) :
      Reads data b [] finish
  | gap {b next : ℕ} {members : List Member} {finish : Option ℕ} (h : outcome data b = .gap next)
      (rest : Reads data next members finish) : Reads data b members finish
  | member {b next : ℕ} {m : Member} {members : List Member} {finish : Option ℕ}
      (h : outcome data b = .member m next) (rest : Reads data next members finish) :
      Reads data b (m :: members) finish

/-! ### What the scanners pass -/

section

variable {data : List UInt8} {pos : ℕ}

lemma scanName_byte {k : ℕ} (hle : pos ≤ k) (hlt : k < scanName data pos) :
    k < data.length ∧ nameTerminator (byteAt data k) = false := by
  obtain ⟨h, hbyte⟩ := width_byteAt _ hle hlt
  exact ⟨h, by simpa using hbyte⟩

lemma scanName_stop (h : scanName data pos < data.length) :
    nameTerminator (byteAt data (scanName data pos)) = true := by
  have hbyte := width_stops_byteAt _ h
  simpa [scanName] using hbyte

lemma scanName_le (h : pos ≤ data.length) : scanName data pos ≤ data.length := by
  have := width_le (fun c => !nameTerminator c) data pos
  unfold scanName
  omega

lemma skipHorizontal_le (h : pos ≤ data.length) : skipHorizontal data pos ≤ data.length := by
  have := width_le horizontal data pos
  unfold skipHorizontal
  omega

lemma nextLine_le (h : pos < data.length) : nextLine data pos ≤ data.length := by
  apply skipHorizontal_le
  unfold behindLine
  split
  · rename_i hcrlf
    exact hcrlf.2.1
  · exact h

/-- The byte before the next line's start is whitespace. -/
lemma nextLine_before (hline : newline (byteAt data pos) = true) :
    ∃ a, nextLine data pos = a + 1 ∧ nameTerminator (byteAt data a) = true := by
  have hterminates : ∀ c, newline c = true → nameTerminator c = true := by
    intro c hc
    simp [nameTerminator, hc]
  rcases Nat.eq_zero_or_pos (width horizontal data (behindLine data pos)) with hzero | hpos
  · refine ⟨behindLine data pos - 1, ?_, ?_⟩
    · have := lt_behindLine data pos
      unfold nextLine skipHorizontal
      omega
    · unfold behindLine
      split
      · rename_i hcrlf
        rw [show pos + 2 - 1 = pos + 1 by omega, hcrlf.2.2]
        decide
      · exact hterminates _ hline
  · refine ⟨nextLine data pos - 1, ?_, ?_⟩
    · have := lt_nextLine data pos
      omega
    · have hbyte : horizontal (byteAt data (nextLine data pos - 1)) = true := by
        have hfrom : behindLine data pos ≤ nextLine data pos - 1 := by
          unfold nextLine skipHorizontal
          omega
        refine (width_byteAt horizontal hfrom ?_).2
        unfold nextLine skipHorizontal
        omega
      simp [nameTerminator, hbyte]

lemma quoteClose_spec (h : quoteClose data pos < data.length) :
    (quotedUnits data (byteAt data pos)).search data.length (pos + 1) =
        some (quoteClose data pos) ∧
      byteAt data (quoteClose data pos) = byteAt data pos := by
  unfold quoteClose at h ⊢
  cases hsearch : (quotedUnits data (byteAt data pos)).search data.length (pos + 1) with
  | none =>
    rw [hsearch] at h
    exact absurd h (lt_irrefl _)
  | some close =>
    rw [hsearch] at h
    dsimp only at h ⊢
    split at h
    · rename_i hbyte
      rw [if_pos hbyte]
      exact ⟨rfl, hbyte⟩
    · exact absurd h (lt_irrefl _)

lemma lt_quoteClose (h : quoteClose data pos < data.length) : pos < quoteClose data pos := by
  have hmeets := ((Scanner.search_eq_some _ _ _ _).mp (quoteClose_spec h).1).1.le
  omega

lemma unquotedStop_of_valueEnd (h : pos < data.length) (hend : valueEnd (byteAt data pos) = true) :
    unquotedStop data pos = pos := by
  rw [unquotedStop, Scanner.search_of_closes _ h hend, Option.getD_some]

lemma unquotedStop_of_le (h : data.length ≤ pos) : unquotedStop data pos = data.length := by
  rw [unquotedStop, Scanner.search_of_le _ h, Option.getD_none]

lemma unquotedStop_step (hend : valueEnd (byteAt data pos) = false) :
    unquotedStop data pos = unquotedStop data (pos + if escaped data pos then 2 else 1) := by
  rw [unquotedStop, Scanner.search_step _ hend]
  rfl

lemma unquotedStop_spec (data : List UInt8) (pos : ℕ) : unquotedStop data pos = data.length ∨
    (pos ≤ unquotedStop data pos ∧ unquotedStop data pos < data.length ∧
      valueEnd (byteAt data (unquotedStop data pos)) = true) := by
  unfold unquotedStop
  cases hsearch : (unquotedUnits data).search data.length pos with
  | none => exact Or.inl rfl
  | some stop =>
    obtain ⟨hmeets, hlt, hend⟩ := (Scanner.search_eq_some _ _ _ _).mp hsearch
    exact Or.inr ⟨hmeets.le, hlt, hend⟩

lemma le_unquotedStop (h : pos ≤ data.length) : pos ≤ unquotedStop data pos := by
  rcases unquotedStop_spec data pos with heq | ⟨hle, _, _⟩
  · rw [heq]
    exact h
  · exact hle

lemma unquotedStop_le : unquotedStop data pos ≤ data.length := by
  rcases unquotedStop_spec data pos with heq | ⟨_, hlt, _⟩
  · exact heq.le
  · exact hlt.le

/-! ### Every boundary leads on -/

variable {b next e : ℕ}

/-- Behind whitespace stands a boundary further on, and whitespace before it. -/
lemma skipGap_spec (hlt : b < data.length)
    (hgap : (horizontal (byteAt data b) || newline (byteAt data b)) = true)
    (h : skipGap data b = some next) :
    b < next ∧ next ≤ data.length ∧ ∃ a, next = a + 1 ∧ nameTerminator (byteAt data a) = true := by
  have hle := skipHorizontal_le hlt.le
  have hge := le_skipHorizontal data b
  unfold skipGap at h
  dsimp only at h
  split at h
  · rename_i hline
    split at h
    · cases h
    · obtain rfl := Option.some.inj h
      have := lt_nextLine data (skipHorizontal data b)
      exact ⟨by omega, nextLine_le hline.1, nextLine_before hline.2⟩
  · rename_i hline
    obtain rfl := Option.some.inj h
    have hpos : 0 < width horizontal data b := by
      apply width_byteAt_pos _ hlt
      by_contra hcon
      rw [Bool.not_eq_true] at hcon
      rw [hcon, Bool.false_or] at hgap
      -- without a space the loop stops at the line ending
      have hzero : width horizontal data b = 0 := by
        by_contra hne
        have hin : b < b + width horizontal data b := by omega
        have hbyte := (width_byteAt horizontal le_rfl hin).2
        rw [hcon] at hbyte
        cases hbyte
      apply hline
      unfold skipHorizontal
      rw [hzero]
      exact ⟨hlt, hgap⟩
    have hafter : b < skipHorizontal data b := by
      unfold skipHorizontal
      omega
    refine ⟨hafter, hle, skipHorizontal data b - 1, by omega, ?_⟩
    have hbyte : horizontal (byteAt data (skipHorizontal data b - 1)) = true := by
      have hfrom : b ≤ skipHorizontal data b - 1 := by omega
      refine (width_byteAt horizontal hfrom ?_).2
      unfold skipHorizontal
      omega
    simp [nameTerminator, hbyte]

lemma dispatch_member {m : Member} (hlt : b < data.length)
    (h : dispatch data b = .member m next) : b < next ∧ next ≤ data.length := by
  have hle := le_scanName data (b + 1)
  have hscan : scanName data (b + 1) ≤ data.length := scanName_le hlt
  unfold dispatch at h
  dsimp only at h
  split_ifs at h <;> cases h <;> omega

lemma dispatch_assignment (h : dispatch data b = .assignment e) :
    b < e ∧ e < data.length ∧ byteAt data e = 0x3d ∧ e = scanName data (b + 1) := by
  have hle := le_scanName data (b + 1)
  unfold dispatch at h
  dsimp only at h
  split_ifs at h with h1 h2 h3 h4 h5 h6 h7
  cases h
  rw [not_or, not_le, not_not] at h6
  exact ⟨by omega, h6.1, h6.2, rfl⟩

lemma valueClose_spec (h : valueClose data e + 1 < data.length) :
    quoteLed data e = true ∧ valueClose data e = quoteClose data (e + 1) ∧
      e + 1 < valueClose data e := by
  unfold valueClose at h ⊢
  by_cases hled : quoteLed data e = true
  · simp only [hled, if_true] at h ⊢
    exact ⟨trivial, trivial, lt_quoteClose (by omega)⟩
  · simp only [hled] at h
    simp only [Bool.false_eq_true, if_false] at h
    omega

lemma assigned_next (h : e < data.length) :
    e < (assigned data e).2.2 ∧ (assigned data e).2.2 ≤ data.length := by
  unfold assigned
  split
  · rename_i hclose
    obtain ⟨_, _, hlt⟩ := valueClose_spec hclose
    dsimp only
    exact ⟨by omega, by omega⟩
  · exact ⟨Nat.lt_of_lt_of_le (Nat.lt_succ_self e) (le_unquotedStop h), unquotedStop_le⟩

lemma outcome_gap (h : outcome data b = .gap next) : b < next ∧ next ≤ data.length := by
  unfold outcome at h
  split at h
  · cases h
  · rename_i hlt
    split at h
    · rename_i hgap
      cases hskip : skipGap data b with
      | none =>
        rw [hskip] at h
        cases h
      | some place =>
        rw [hskip] at h
        cases h
        obtain ⟨hlt', hle, _⟩ := skipGap_spec (by omega) hgap hskip
        exact ⟨hlt', hle⟩
    · cases hdispatch : dispatch data b with
      | _ =>
        rw [hdispatch] at h
        cases h

lemma outcome_member {m : Member} (h : outcome data b = .member m next) :
    b < next ∧ next ≤ data.length := by
  unfold outcome at h
  split at h
  · cases h
  · rename_i hlt
    split at h
    · cases hskip : skipGap data b with
      | _ =>
        rw [hskip] at h
        cases h
    · cases hdispatch : dispatch data b with
      | last finish =>
        rw [hdispatch] at h
        cases h
      | member m' place =>
        rw [hdispatch] at h
        cases h
        exact dispatch_member (by omega) hdispatch
      | assignment e =>
        rw [hdispatch] at h
        cases h
        obtain ⟨hbe, he, _, _⟩ := dispatch_assignment hdispatch
        obtain ⟨hnext, hle⟩ := assigned_next he
        exact ⟨by omega, hle⟩

lemma dispatch_last {finish : ℕ} (h : dispatch data b = .last (some finish)) :
    finish = b + 1 ∧ byteAt data b = 0x7d := by
  unfold dispatch at h
  dsimp only at h
  split_ifs at h with hclose
  all_goals cases h
  exact ⟨rfl, hclose⟩

/-- A container ends behind a closing brace. -/
lemma outcome_last {finish : ℕ} (h : outcome data b = .last (some finish)) :
    finish = b + 1 ∧ b < data.length ∧ byteAt data b = 0x7d := by
  unfold outcome at h
  split at h
  · cases h
  rename_i hlt
  split at h
  · cases hskip : skipGap data b with
    | _ =>
      rw [hskip] at h
      cases h
  · cases hdispatch : dispatch data b with
    | last result =>
      rw [hdispatch] at h
      cases h
      obtain ⟨rfl, hbyte⟩ := dispatch_last hdispatch
      exact ⟨rfl, Nat.not_le.mp hlt, hbyte⟩
    | _ =>
      rw [hdispatch] at h
      cases h

/-- A boundary is read in one way. -/
lemma Reads.unique {members others : List Member} {finish other : Option ℕ}
    (h : Reads data b members finish) (h' : Reads data b others other) :
    members = others ∧ finish = other := by
  induction h generalizing others with
  | last hlast =>
    cases h' with
    | last hlast' =>
      rw [hlast] at hlast'
      cases hlast'
      exact ⟨rfl, rfl⟩
    | gap hgap _ =>
      rw [hlast] at hgap
      cases hgap
    | member hmember _ =>
      rw [hlast] at hmember
      cases hmember
  | gap hgap _ ih =>
    cases h' with
    | last hlast =>
      rw [hgap] at hlast
      cases hlast
    | gap hgap' rest =>
      rw [hgap] at hgap'
      cases hgap'
      exact ih rest
    | member hmember _ =>
      rw [hgap] at hmember
      cases hmember
  | member hmember _ ih =>
    cases h' with
    | last hlast =>
      rw [hmember] at hlast
      cases hlast
    | gap hgap _ =>
      rw [hmember] at hgap
      cases hgap
    | member hmember' rest =>
      rw [hmember] at hmember'
      cases hmember'
      obtain ⟨rfl, rfl⟩ := ih rest
      exact ⟨rfl, rfl⟩

end

end MarkdownCore.Attributes
