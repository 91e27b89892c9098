import MarkdownCore.Attributes.Values
import MarkdownCore.Attributes.MemoRun

/-!
# A container is read as it was recognised

Recognition, reading and the listing of parts scan a container each for itself. They meet the same
members: reading stages what they mean and stops at the closing brace, and the parts are the spans
of their fields that are not empty.
-/

namespace MarkdownCore.Attributes

open Inline

/-- What a member stages. -/
def Member.stage (table : EntityTable) (data : List UInt8) (w : Scratch) : Member → Scratch
  | .unnumbered _ => w.addMember none Attributes.unnumbered
  | .identifier name => w.setAnchor (slice data name)
  | .className name => w.addMember none (slice data name)
  | .bare name => w.addRecord (slice data name) bareValue
  | .record name value true => w.addRecord (slice data name) (unquote table (slice data value))
  | .record name value false => w.addRecord (slice data name) (unescape (slice data value))

/-- The fields a member has in the source. -/
def Member.fields : Member → List Part
  | .unnumbered _ => []
  | .identifier name => [⟨.id, name⟩]
  | .className name => [⟨.className, name⟩]
  | .bare name => [⟨.record, name⟩]
  | .record name value _ => [⟨.record, name⟩, ⟨.value, value⟩]

/-- A field of some bytes. -/
def Part.holds (part : Part) : Bool := part.span.start < part.span.stop

section

variable {data : List UInt8} {b next finish steps : ℕ} {members : List Member} {m : Member}
  {w : Scratch} {parts : List Part}

lemma scanName_first (hlt : b < data.length) (h : nameTerminator (byteAt data b) = false) :
    scanName data b = scanName data (b + 1) := by
  have hbyte : nameTerminator data[b] = false := by rwa [← byteAt_eq_getElem hlt]
  rw [scanName, scanName, width, width, List.drop_eq_getElem_cons hlt, List.takeWhile_cons, hbyte]
  simp only [Bool.not_false, if_true, List.length_cons]
  omega

/-- An unquoted value that starts with a quote has no closer in its container. -/
lemma unclosed (h : outcome data b = .member m next) (rest : Reads data next members (some finish))
    (hled : quoteLed data (scanName data (b + 1)) = true)
    (hclose : ¬ valueClose data (scanName data (b + 1)) + 1 < data.length) {found : ℕ}
    (hfound : (plainUnits data (byteAt data (scanName data (b + 1) + 1))).search data.length
      (scanName data (b + 1) + 2) = some found) : finish - 1 ≤ found := by
  obtain ⟨_, hfinish, _⟩ := rest.lt
  by_contra hlt
  rw [not_le] at hlt
  have hquote := quoteLed_isQuote hled
  have hle := le_scanName data (b + 1)
  have hlines : ∀ k, scanName data (b + 1) + 2 ≤ k → k < found →
      newline (byteAt data k) = true → beforeBlank data k = false :=
    fun k hk hkf => (Reads.member h rest).lines (by omega) (by omega)
  have hquoted := quoted_of_plain hquote hfound hlines
  obtain ⟨_, _, hbyte⟩ := (Scanner.search_eq_some _ _ _ _).mp hfound
  apply hclose
  rw [valueClose, if_pos hled, quoteClose, hquoted]
  dsimp only
  rw [if_pos (by simpa [plainUnits] using hbyte)]
  omega

lemma NameByte.not_blank (h : NameByte data b) :
    ¬ (horizontal (byteAt data b) || newline (byteAt data b)) = true := by
  have hname := h.name
  simp only [nameTerminator, Bool.or_eq_false_iff] at hname
  simp [hname]

lemma not_blank {c : UInt8} (h : c = 0x2d ∨ c = 0x23 ∨ c = 0x2e) :
    ¬ (horizontal c || newline c) = true := by
  rcases h with rfl | rfl | rfl <;> decide

/-- A closer in the container, found by the search that takes a line ending for a byte. -/
lemma closed_plain {e : ℕ} (hclose : valueClose data e + 1 < data.length) :
    isQuote (byteAt data (e + 1)) = true ∧ e + 1 < valueClose data e ∧
      byteAt data (valueClose data e) = byteAt data (e + 1) ∧
      (plainUnits data (byteAt data (e + 1))).search data.length (e + 2) =
        some (valueClose data e) := by
  obtain ⟨hled, heq, hlt⟩ := valueClose_spec hclose
  have hquoteClose : quoteClose data (e + 1) < data.length := by omega
  obtain ⟨hsearch, hbyte⟩ := quoteClose_spec hquoteClose
  rw [← heq] at hsearch hbyte
  have hquote := quoteLed_isQuote hled
  exact ⟨hquote, hlt, hbyte, plain_of_quoted hquote hsearch hbyte⟩

/-! ### Reading -/

/-- Reading takes a member whole and stages it. -/
lemma readFrom_member {table : EntityTable} (h : outcome data b = .member m next)
    (rest : Reads data next members (some finish)) :
    readFrom table data finish (steps + 1) w b =
      readFrom table data finish steps (m.stage table data w) next := by
  obtain ⟨hlt, _, _, hmember⟩ := outcome_memberAt h
  obtain ⟨hnext, hfinish, _⟩ := rest.lt
  have hbefore := (outcome_member h).1
  have hdash : memberBoundary (data.take finish) (b + 1) = memberBoundary data (b + 1) :=
    memberBoundary_cut hfinish (by omega)
  have hscan : scanName (data.take finish) (b + 1) = min (scanName data (b + 1)) finish :=
    scanName_cut (by omega)
  have hopen : ¬ finish - 1 ≤ b := by omega
  rw [readFrom]
  dsimp only
  rw [if_neg hopen, hdash]
  cases hmember with
  | unnumbered hbyte hend =>
    rw [if_neg (not_blank (Or.inl hbyte)), if_pos ⟨hbyte, hend⟩]
    rfl
  | identifier hbyte hname =>
    rw [if_neg (not_blank (Or.inr (Or.inl hbyte))), if_neg, if_pos (Or.inl hbyte), if_pos hbyte,
      hscan, min_eq_left hnext.le]
    · rfl
    · rw [hbyte]
      exact fun h => by cases h.1
  | className hbyte hname =>
    rw [if_neg (not_blank (Or.inr (Or.inr hbyte))), if_neg, if_pos (Or.inr hbyte), if_neg,
      hscan, min_eq_left hnext.le]
    · rfl
    · rw [hbyte]
      decide
    · rw [hbyte]
      exact fun h => by cases h.1
  | bare hname hend =>
    rw [if_neg hname.not_blank, if_neg hname.dash, if_neg (not_or.mpr ⟨hname.number, hname.dot⟩),
      scanName_cut (by omega), scanName_first hlt hname.name, min_eq_left hnext.le, if_pos]
    · rfl
    · right
      rw [memberBoundary, Bool.or_eq_true, decide_eq_true_eq] at hend
      rcases hend with hout | hvalue
      · omega
      · exact valueEnd_ne_assign hvalue
  | quoted hname hassign hclose =>
    obtain ⟨hquote, hlt', hcloser, hfound⟩ := closed_plain hclose
    have hdecoded := @decodeQuotedFrom_some data _ finish table _ hquote hfinish (by omega) hcloser
      data.length [] _ hfound (by omega)
    rw [if_neg hname.not_blank, if_neg hname.dash, if_neg (not_or.mpr ⟨hname.number, hname.dot⟩),
      scanName_cut (by omega), scanName_first hlt hname.name, min_eq_left (by omega), if_neg,
      if_pos hquote, decodeQuoted, hdecoded]
    · rfl
    · rintro (hout | hne)
      · omega
      · exact hne hassign
  | unquoted hname hassign hclose =>
    have hin : scanName data (b + 1) < data.length := lt_of_byteAt hassign (by decide)
    have hvalue : scanName data (b + 1) + 1 ≤ unquotedStop data (scanName data (b + 1) + 1) :=
      le_unquotedStop hin
    have hnone : (if isQuote (byteAt data (scanName data (b + 1) + 1)) = true then
        decodeQuoted table data finish (scanName data (b + 1) + 1) else none) = none := by
      split
      · rename_i hquote
        apply decodeQuotedFrom_none hquote hfinish
        intro found hfound
        have hled : quoteLed data (scanName data (b + 1)) = true := by
          rw [quoteLed, hquote, Bool.and_true, decide_eq_true_eq]
          omega
        exact unclosed h rest hled hclose hfound
      · rfl
    have hdecoded := decodeUnquotedFrom_spec hfinish data.length []
      (scanName data (b + 1) + 1) hvalue hnext (by omega)
    rw [if_neg hname.not_blank, if_neg hname.dash, if_neg (not_or.mpr ⟨hname.number, hname.dot⟩),
      scanName_cut (by omega), scanName_first hlt hname.name, min_eq_left (by omega), if_neg,
      hnone, Option.getD_none, decodeUnquoted, hdecoded]
    · rfl
    · rintro (hout | hne)
      · omega
      · exact hne hassign

/-- Reading passes whitespace byte by byte. -/
lemma readFrom_blank {table : EntityTable} : ∀ count b,
    (∀ k, b ≤ k → k < b + count →
      (horizontal (byteAt data k) || newline (byteAt data k)) = true) →
    b + count ≤ finish - 1 →
    readFrom table data finish (steps + count) w b =
      readFrom table data finish steps w (b + count) := by
  intro count
  induction count with
  | zero => exact fun b _ _ => rfl
  | succ count ih =>
    intro b hblank hle
    rw [← Nat.add_assoc, readFrom]
    dsimp only
    rw [if_neg (by omega), if_pos (hblank b le_rfl (by omega)),
      ih (b + 1) (fun k hk hlt => hblank k (by omega) (by omega)) (by omega),
      show b + 1 + count = b + (count + 1) by omega]

/-- Reading stages the members in order and stops at the closing brace. -/
lemma readFrom_spec {table : EntityTable} (h : Reads data b members (some finish)) :
    ∀ steps w, finish - 1 ≤ b + steps →
      readFrom table data finish steps w b =
        (finish - 1, members.foldl (Member.stage table data) w) := by
  generalize hresult : some finish = result at h
  induction h with
  | @last b result h =>
    subst hresult
    obtain ⟨rfl, _, _⟩ := outcome_last h
    intro steps w _
    cases steps with
    | zero => rfl
    | succ steps =>
      rw [readFrom]
      dsimp only
      rw [if_pos (by omega)]
      rfl
  | @gap b next members result h rest ih =>
    intro steps w hsteps
    obtain ⟨hlt, _⟩ := outcome_gap h
    have hfinish := (hresult ▸ rest).lt.1
    obtain ⟨count, rfl⟩ := Nat.exists_eq_add_of_lt hlt
    obtain ⟨steps, rfl⟩ : ∃ left, steps = left + (count + 1) := ⟨steps - (count + 1), by omega⟩
    rw [readFrom_blank (count + 1) b (fun k hk hk' => gap_byte h hk hk') (by omega)]
    exact ih hresult steps w (by omega)
  | @member b next m members result h rest ih =>
    intro steps w hsteps
    subst hresult
    obtain ⟨hlt, _⟩ := outcome_member h
    have hfinish := rest.lt.1
    obtain ⟨steps, rfl⟩ : ∃ left, steps = left + 1 := ⟨steps - 1, by omega⟩
    rw [readFrom_member h rest, List.foldl_cons]
    exact ih rfl steps _ (by omega)

/-! ### Parts -/

lemma addPart_eq {slot : SlotKind} {start stop : ℕ} (hstop : stop ≤ data.length) :
    addPart data parts slot start stop =
      parts ++ [⟨slot, ⟨start, stop⟩⟩].filter Part.holds := by
  unfold addPart
  rcases Nat.lt_or_ge start stop with hlt | hge
  · rw [if_neg (by omega)]
    simp [Part.holds, hlt]
  · rw [if_pos (Or.inl hge)]
    simp [Part.holds, Nat.not_lt.mpr hge]

/-- The listing takes a member whole and lists its fields. -/
lemma partsFrom_member (h : outcome data b = .member m next)
    (rest : Reads data next members (some finish)) :
    partsFrom data finish (steps + 1) parts b =
      partsFrom data finish steps (parts ++ m.fields.filter Part.holds) next := by
  obtain ⟨hlt, _, _, hmember⟩ := outcome_memberAt h
  obtain ⟨hnext, hfinish, _⟩ := rest.lt
  have hbefore := (outcome_member h).1
  have hdash : memberBoundary (data.take finish) (b + 1) = memberBoundary data (b + 1) :=
    memberBoundary_cut hfinish (by omega)
  have hscan : scanName (data.take (finish - 1)) (b + 1) = min (scanName data (b + 1)) (finish - 1) :=
    scanName_cut (by omega)
  have hopen : ¬ finish - 1 ≤ b := by omega
  rw [partsFrom]
  dsimp only
  rw [if_neg hopen, hdash]
  cases hmember with
  | unnumbered hbyte hend =>
    rw [if_neg (not_blank (Or.inl hbyte)), if_pos ⟨hbyte, hend⟩, Member.fields, List.filter_nil,
      List.append_nil]
  | identifier hbyte hname =>
    rw [if_neg (not_blank (Or.inr (Or.inl hbyte))), if_neg, if_pos (Or.inl hbyte), if_pos hbyte,
      hscan, min_eq_left (by omega), addPart_eq (by omega)]
    · rfl
    · rw [hbyte]
      exact fun h => by cases h.1
  | className hbyte hname =>
    rw [if_neg (not_blank (Or.inr (Or.inr hbyte))), if_neg, if_pos (Or.inr hbyte), if_neg,
      hscan, min_eq_left (by omega), addPart_eq (by omega)]
    · rfl
    · rw [hbyte]
      decide
    · rw [hbyte]
      exact fun h => by cases h.1
  | bare hname hend =>
    rw [if_neg hname.not_blank, if_neg hname.dash, if_neg (not_or.mpr ⟨hname.number, hname.dot⟩),
      scanName_cut (by omega), scanName_first hlt hname.name, min_eq_left (by omega), if_pos,
      addPart_eq (by omega)]
    · rfl
    · right
      rw [memberBoundary, Bool.or_eq_true, decide_eq_true_eq] at hend
      rcases hend with hout | hvalue
      · omega
      · exact valueEnd_ne_assign hvalue
  | quoted hname hassign hclose =>
    obtain ⟨hquote, hlt', hcloser, hfound⟩ := closed_plain hclose
    have hend : (if scanName data (b + 1) + 1 < finish - 1 ∧
          isQuote (byteAt data (scanName data (b + 1) + 1)) = true then
        quotedEnd (data.take (finish - 1)) (byteAt data (scanName data (b + 1) + 1))
          (scanName data (b + 1) + 1 + 1) else finish - 1) =
        valueClose data (scanName data (b + 1)) := by
      rw [if_pos ⟨by omega, hquote⟩, quotedEnd, length_cut (by omega), plainUnits_cut (by omega), hfound,
        Option.filter_some_pos (by simp; omega), Option.getD_some]
    rw [if_neg hname.not_blank, if_neg hname.dash, if_neg (not_or.mpr ⟨hname.number, hname.dot⟩),
      scanName_cut (by omega), scanName_first hlt hname.name, min_eq_left (by omega), if_neg,
      hend, if_pos (by omega), addPart_eq (by omega),
      addPart_eq (by omega), List.append_assoc]
    · congr 1
      rw [← List.filter_append]
      rfl
    · rintro (hout | hne)
      · omega
      · exact hne hassign
  | unquoted hname hassign hclose =>
    have hin : scanName data (b + 1) < data.length := lt_of_byteAt hassign (by decide)
    have hvalue : scanName data (b + 1) + 1 ≤ unquotedStop data (scanName data (b + 1) + 1) :=
      le_unquotedStop hin
    have hnone : (if scanName data (b + 1) + 1 < finish - 1 ∧
          isQuote (byteAt data (scanName data (b + 1) + 1)) = true then
        quotedEnd (data.take (finish - 1)) (byteAt data (scanName data (b + 1) + 1))
          (scanName data (b + 1) + 1 + 1) else finish - 1) = finish - 1 := by
      split
      · rename_i hquote
        rw [quotedEnd, length_cut (by omega), plainUnits_cut (by omega)]
        have hled : quoteLed data (scanName data (b + 1)) = true := by
          rw [quoteLed, hquote.2, Bool.and_true, decide_eq_true_eq]
          omega
        cases hfound : (plainUnits data (byteAt data (scanName data (b + 1) + 1))).search
            data.length (scanName data (b + 1) + 1 + 1) with
        | none => rfl
        | some found =>
          have hbehind := unclosed h rest hled hclose hfound
          rw [Option.filter_some_neg (by simp; omega), Option.getD_none]
      · rfl
    rw [if_neg hname.not_blank, if_neg hname.dash, if_neg (not_or.mpr ⟨hname.number, hname.dot⟩),
      scanName_cut (by omega), scanName_first hlt hname.name, min_eq_left (by omega), if_neg,
      hnone, if_neg (Nat.lt_irrefl _), unquotedStop_cut (by omega), min_eq_left (by omega),
      addPart_eq (by omega), addPart_eq (by omega), List.append_assoc]
    · congr 1
      rw [← List.filter_append]
      rfl
    · rintro (hout | hne)
      · omega
      · exact hne hassign

lemma partsFrom_blank : ∀ count b,
    (∀ k, b ≤ k → k < b + count →
      (horizontal (byteAt data k) || newline (byteAt data k)) = true) →
    b + count ≤ finish - 1 →
    partsFrom data finish (steps + count) parts b = partsFrom data finish steps parts (b + count) := by
  intro count
  induction count with
  | zero => exact fun b _ _ => rfl
  | succ count ih =>
    intro b hblank hle
    rw [← Nat.add_assoc, partsFrom]
    dsimp only
    rw [if_neg (by omega), if_pos (hblank b le_rfl (by omega)),
      ih (b + 1) (fun k hk hlt => hblank k (by omega) (by omega)) (by omega),
      show b + 1 + count = b + (count + 1) by omega]

/-- The parts are the fields of the members in order. -/
lemma partsFrom_spec (h : Reads data b members (some finish)) :
    ∀ steps parts, finish - 1 ≤ b + steps →
      partsFrom data finish steps parts b =
        parts ++ (members.flatMap Member.fields).filter Part.holds := by
  generalize hresult : some finish = result at h
  induction h with
  | @last b result h =>
    subst hresult
    obtain ⟨rfl, _, _⟩ := outcome_last h
    intro steps parts _
    cases steps with
    | zero => simp [partsFrom]
    | succ steps =>
      rw [partsFrom]
      dsimp only
      rw [if_pos (by omega)]
      simp
  | @gap b next members result h rest ih =>
    intro steps parts hsteps
    obtain ⟨hlt, _⟩ := outcome_gap h
    have hfinish := (hresult ▸ rest).lt.1
    obtain ⟨count, rfl⟩ := Nat.exists_eq_add_of_lt hlt
    obtain ⟨steps, rfl⟩ : ∃ left, steps = left + (count + 1) := ⟨steps - (count + 1), by omega⟩
    rw [partsFrom_blank (count + 1) b (fun k hk hk' => gap_byte h hk hk') (by omega)]
    exact ih hresult steps parts (by omega)
  | @member b next m members result h rest ih =>
    intro steps parts hsteps
    subst hresult
    obtain ⟨hlt, _⟩ := outcome_member h
    have hfinish := rest.lt.1
    obtain ⟨steps, rfl⟩ : ∃ left, steps = left + 1 := ⟨steps - 1, by omega⟩
    rw [partsFrom_member h rest, ih rfl steps _ (by omega), List.flatMap_cons,
      List.filter_append, List.append_assoc]

/-! ### The fields lie in order -/

/-- The fields of a member lie in it, in order. -/
lemma MemberAt.fields_spec (h : MemberAt data b m next) (hin : next < data.length) :
    m.fields.Pairwise (fun f g => f.span.stop ≤ g.span.start) ∧
      ∀ f ∈ m.fields, b ≤ f.span.start ∧ f.span.start ≤ f.span.stop ∧ f.span.stop ≤ next := by
  have hle := le_scanName data (b + 1)
  cases h with
  | unnumbered _ _ => simp [Member.fields]
  | identifier _ _ =>
    simp only [Member.fields, List.pairwise_singleton, List.forall_mem_singleton, true_and]
    omega
  | className _ _ =>
    simp only [Member.fields, List.pairwise_singleton, List.forall_mem_singleton, true_and]
    omega
  | bare _ _ =>
    simp only [Member.fields, List.pairwise_singleton, List.forall_mem_singleton, true_and]
    omega
  | quoted _ _ hclose =>
    obtain ⟨_, hlt, _⟩ := closed_plain hclose
    simp only [Member.fields, List.pairwise_cons, List.forall_mem_singleton, List.forall_mem_cons,
      List.Pairwise.nil, List.not_mem_nil, false_implies, implies_true, and_true]
    omega
  | unquoted _ hassign _ =>
    have hassigned : scanName data (b + 1) < data.length := lt_of_byteAt hassign (by decide)
    have hvalue : scanName data (b + 1) + 1 ≤ unquotedStop data (scanName data (b + 1) + 1) :=
      le_unquotedStop hassigned
    simp only [Member.fields, List.pairwise_cons, List.forall_mem_singleton, List.forall_mem_cons,
      List.Pairwise.nil, List.not_mem_nil, false_implies, implies_true, and_true]
    omega

/-- The fields of a container lie in it, in order. -/
lemma Reads.fields_spec (h : Reads data b members (some finish)) :
    (members.flatMap Member.fields).Pairwise (fun f g => f.span.stop ≤ g.span.start) ∧
      ∀ f ∈ members.flatMap Member.fields,
        b ≤ f.span.start ∧ f.span.start ≤ f.span.stop ∧ f.span.stop < finish := by
  generalize hresult : some finish = result at h
  induction h with
  | last _ => simp
  | @gap b next members result h rest ih =>
    obtain ⟨hlt, _⟩ := outcome_gap h
    obtain ⟨hsorted, hinside⟩ := ih hresult
    refine ⟨hsorted, fun f hf => ?_⟩
    obtain ⟨hstart, hrest⟩ := hinside f hf
    exact ⟨hlt.le.trans hstart, hrest⟩
  | @member b next m members result h rest ih =>
    subst hresult
    obtain ⟨hsorted, hinside⟩ := ih rfl
    obtain ⟨_, _, _, hmember⟩ := outcome_memberAt h
    obtain ⟨hnext, hfinish, _⟩ := rest.lt
    obtain ⟨hown, hownInside⟩ := hmember.fields_spec (by omega)
    obtain ⟨hlt, _⟩ := outcome_member h
    rw [List.flatMap_cons]
    refine ⟨List.pairwise_append.mpr ⟨hown, hsorted, ?_⟩, ?_⟩
    · intro f hf g hg
      exact (hownInside f hf).2.2.trans (hinside g hg).1
    · intro f hf
      rcases List.mem_append.mp hf with hf | hf
      · obtain ⟨hstart, hspan, hstop⟩ := hownInside f hf
        exact ⟨hstart, hspan, Nat.lt_of_le_of_lt hstop hnext⟩
      · obtain ⟨hstart, hspan, hstop⟩ := hinside f hf
        exact ⟨hlt.le.trans hstart, hspan, hstop⟩

end

/-- What recognition answers is the end of a container. -/
lemma reads_of_attributesEnd {storage : Bool} {data : List UInt8} {p : Parser}
    (hkept : p.Kept storage data) {start : ℕ} (h : (attributesEnd storage p start).1 ≠ 0) :
    ∃ members, Reads data (start + 1) members (some (attributesEnd storage p start).1) := by
  have hanswers := (attributesEnd_spec hkept start).1
  unfold Answers at hanswers
  split at hanswers
  · obtain ⟨finish, ⟨members, hreads⟩, heq⟩ := hanswers
    cases finish with
    | none => exact absurd heq h
    | some finish =>
      rw [heq]
      exact ⟨members, hreads⟩
  · exact absurd hanswers h

/-- Wherever recognition finds the end of a container, after whatever it was asked before: its
members are read up to the closing brace and staged in order, and the parts are those of their
fields that hold a byte, in order, one behind the other between the braces. -/
theorem container_of_recognition (table : EntityTable) (data : List UInt8) (starts : List ℕ)
    (start finish : ℕ) (hfinish : finish ≠ 0)
    (h : (attributesEnd true (endsRun true (.fresh data) starts).2 start).1 = finish) :
    ∃ members, Reads data (start + 1) members (some finish) ∧
      readContainer table data finish start =
        (finish - 1, members.foldl (Member.stage table data) Scratch.empty) ∧
      attributesParts data true start =
        (finish, (members.flatMap Member.fields).filter Part.holds, false) ∧
      (members.flatMap Member.fields).Pairwise (fun f g => f.span.stop ≤ g.span.start) ∧
      ∀ f ∈ members.flatMap Member.fields,
        start < f.span.start ∧ f.span.start ≤ f.span.stop ∧ f.span.stop < finish := by
  have hkept := (endsRun_spec starts _ (Parser.Kept.fresh true data)).2
  obtain ⟨members, hreads⟩ := reads_of_attributesEnd hkept (by rw [h]; exact hfinish)
  rw [h] at hreads
  obtain ⟨_, hin, _⟩ := hreads.lt
  obtain ⟨hsorted, hinside⟩ := hreads.fields_spec
  have hfresh := attributesEnd_fresh hkept start
  refine ⟨members, hreads, readFrom_spec hreads _ _ (by omega), ?_, hsorted, hinside⟩
  rw [h] at hfresh
  unfold attributesParts
  generalize attributesEnd true (.fresh data) start = result at hfresh
  obtain ⟨answer, p⟩ := result
  dsimp only at hfresh ⊢
  subst hfresh
  rw [if_neg hfinish, partsFrom_spec hreads _ _ (by omega), List.nil_append]

/-- A table without names. -/
def EntityTable.none : EntityTable := ⟨fun _ => Option.none, fun _ _ h => by cases h⟩

/-- `{a=b}` after a query. -/
theorem container_of_assignment :
    ∃ members, Reads [0x7b, 0x61, 0x3d, 0x62, 0x7d] (0 + 1) members (some 5) ∧
      readContainer .none [0x7b, 0x61, 0x3d, 0x62, 0x7d] 5 0 =
        (5 - 1, members.foldl (Member.stage .none [0x7b, 0x61, 0x3d, 0x62, 0x7d])
          Scratch.empty) ∧
      attributesParts [0x7b, 0x61, 0x3d, 0x62, 0x7d] true 0 =
        (5, (members.flatMap Member.fields).filter Part.holds, false) ∧
      (members.flatMap Member.fields).Pairwise (fun f g => f.span.stop ≤ g.span.start) ∧
      ∀ f ∈ members.flatMap Member.fields,
        0 < f.span.start ∧ f.span.start ≤ f.span.stop ∧ f.span.stop < 5 :=
  container_of_recognition .none [0x7b, 0x61, 0x3d, 0x62, 0x7d] [0] 0 5 (by decide) (by decide)

/-- `{a=""}`: a record with an empty value is read, and its value is no part. -/
theorem empty_value_unlisted :
    (attributesEnd true (.fresh [0x7b, 0x61, 0x3d, 0x22, 0x22, 0x7d]) 0).1 = 6 ∧
      (readContainer .none [0x7b, 0x61, 0x3d, 0x22, 0x22, 0x7d] 6 0).2.members =
        [(some [0x61], [])] ∧
      (attributesParts [0x7b, 0x61, 0x3d, 0x22, 0x22, 0x7d] true 0).2.1 =
        [⟨.record, ⟨1, 2⟩⟩] := by
  decide

end MarkdownCore.Attributes
