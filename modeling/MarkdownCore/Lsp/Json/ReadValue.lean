import MarkdownCore.Lsp.Json.Items

/-!
# Reading a value

A value is read by its first byte: each of the grammar's values starts with a byte that no other
kind of value starts with. Over the levels that may nest, the reader takes the values of the
grammar; a text is read when it is a value, with spaces about it.
-/

namespace MarkdownCore.Json

/-! ### First bytes -/

/-- The first byte of a number. -/
def startsNumber (b : UInt8) : Bool := b = 45 || isDigit b

lemma Number.head {u : List UInt8} (h : Number u) : ∃ b t, u = b :: t ∧ startsNumber b = true := by
  obtain ⟨hminus, hwhole, -, -⟩ := h
  rcases hminus with rfl | rfl
  · cases hwhole with
    | zero => exact ⟨48, _, rfl, by decide⟩
    | @digits b u h hb =>
      refine ⟨b, _, rfl, ?_⟩
      rw [startsNumber, h.2 b List.mem_cons_self, Bool.or_true]
  · exact ⟨45, _, rfl, by decide⟩

lemma ne_of_startsNumber {b c : UInt8} (hb : startsNumber b = true) (hc : startsNumber c = false) :
    b ≠ c := by
  rintro rfl
  rw [hb] at hc
  cases hc

lemma not_space_of_startsNumber {b : UInt8} (hb : startsNumber b = true) : isSpace b = false := by
  have h32 := ne_of_startsNumber hb (show startsNumber 32 = false by decide)
  have h9 := ne_of_startsNumber hb (show startsNumber 9 = false by decide)
  have h10 := ne_of_startsNumber hb (show startsNumber 10 = false by decide)
  have h13 := ne_of_startsNumber hb (show startsNumber 13 = false by decide)
  simp [isSpace, h32, h9, h10, h13]

lemma Scalar.head {u : List UInt8} {v : Datum} (h : Scalar u v) :
    ∃ b t, u = b :: t ∧ isSpace b = false ∧ b ≠ 93 ∧ b ≠ 125 := by
  cases h with
  | null => exact ⟨110, _, rfl, by decide⟩
  | no => exact ⟨102, _, rfl, by decide⟩
  | yes => exact ⟨116, _, rfl, by decide⟩
  | number h =>
    obtain ⟨b, t, rfl, hb⟩ := h.head
    exact ⟨b, t, rfl, not_space_of_startsNumber hb, ne_of_startsNumber hb (by decide),
      ne_of_startsNumber hb (by decide)⟩
  | string h =>
    obtain ⟨t, rfl⟩ := h.head
    exact ⟨34, _, rfl, by decide⟩

lemma Bracketed.head {ι : Type} {P : List UInt8 → ι → Prop} {opening close : UInt8}
    {u : List UInt8} {xs : List ι} (h : Bracketed P opening close u xs) :
    u.head? = Option.some opening := by
  cases h with
  | none hw => rfl
  | some h => rfl

lemma Member.head {P : List UInt8 → Datum → Prop} {u : List UInt8} {member : List UInt8 × Datum}
    (h : Member P u member) : ∃ t, u = 34 :: t := by
  obtain ⟨hname, -, -, -⟩ := h
  obtain ⟨t, rfl⟩ := hname.head
  exact ⟨_, rfl⟩

/-- A value with no brackets, an array, or an object. -/
def Cases (A : List UInt8 → List Datum → Prop)
    (O : List UInt8 → List (List UInt8 × Datum) → Prop) (u : List UInt8) (v : Datum) : Prop :=
  Scalar u v ∨ (∃ items, v = .array items ∧ A u items) ∨ ∃ members, v = .object members ∧ O u members

lemma isValue_zero : IsValue 0 = Cases (fun _ _ => False) (fun _ _ => False) := by
  funext u v
  simp [IsValue, Cases]

lemma isValue_succ (levels : ℕ) : IsValue (levels + 1) = Cases (Bracketed (IsValue levels) 91 93)
    (Bracketed (Member (IsValue levels)) 123 125) := rfl

lemma IsValue.head {levels : ℕ} {u : List UInt8} {v : Datum} (h : IsValue levels u v) :
    ∃ b t, u = b :: t ∧ isSpace b = false ∧ b ≠ 93 ∧ b ≠ 125 := by
  have hbracketed : ∀ {b : UInt8}, u.head? = some b → isSpace b = false ∧ b ≠ 93 ∧ b ≠ 125 →
      ∃ b t, u = b :: t ∧ isSpace b = false ∧ b ≠ 93 ∧ b ≠ 125 := by
    intro b hu hb
    cases u with
    | nil => cases hu
    | cons c t =>
      cases hu
      exact ⟨b, t, rfl, hb⟩
  cases levels with
  | zero => exact Scalar.head h
  | succ levels =>
    rcases h with h | ⟨items, -, h⟩ | ⟨members, -, h⟩
    · exact h.head
    · exact hbracketed (Bracketed.head h) (by decide)
    · exact hbracketed (Bracketed.head h) (by decide)

namespace Reader

section

variable {storage : ℕ → Bool}

/-! ### A value -/

/-- A word, where it stands. -/
lemma literal_sound {r r' : Reader} {word : List UInt8} (h : r.literal word = .ok r') :
    r.text = word ++ r'.text ∧ r'.values = r.values ∧ r'.bytes = r.bytes := by
  rw [literal] at h
  split at h
  next hword =>
    rw [← Except.ok.inj h]
    refine ⟨?_, rfl, rfl⟩
    calc r.text = r.text.take word.length ++ r.text.drop word.length :=
          (List.take_append_drop _ _).symm
      _ = word ++ r.text.drop word.length := by rw [hword]
  next => cases h

lemma literal_complete (vs : List Value) (bs word rest : List UInt8) :
    literal ⟨vs, bs, word ++ rest⟩ word = .ok ⟨vs, bs, rest⟩ := by
  rw [literal]
  simp only [List.take_left, List.drop_left, if_true]

/-- A word read, and the value it is. -/
lemma word_sound {r r' : Reader} {word : List UInt8} {kind : Kind}
    (h : (do (← r.literal word).push storage kind) = .ok r') : r.text = word ++ r'.text ∧
      r'.values = r.values ++ [⟨kind, r.values.length + 1, r.bytes.length, 0⟩] ∧
      r'.bytes = r.bytes := by
  cases hword : r.literal word with
  | error status =>
    rw [hword] at h
    cases h
  | ok read =>
    rw [hword, ok_bind] at h
    obtain ⟨htext, hvalues, hbytes⟩ := literal_sound hword
    rw [push_sound h, hvalues, hbytes]
    exact ⟨htext, rfl, rfl⟩

lemma word_complete (hstorage : ∀ n, storage n = true) (vs : List Value) (bs word rest : List UInt8)
    (kind : Kind) : (do (← literal ⟨vs, bs, word ++ rest⟩ word).push storage kind) =
      .ok ⟨vs ++ [⟨kind, vs.length + 1, bs.length, 0⟩], bs, rest⟩ := by
  rw [literal_complete, ok_bind, push_eq hstorage]

/-- A value, its containers read as a grammar says. -/
lemma reads_valueWith {container : Kind → Reader → Except Status Reader}
    {A : List UInt8 → List Datum → Prop} {O : List UInt8 → List (List UInt8 × Datum) → Prop}
    (harray : Reads storage (container .array) (fun t => t.head? = some 91) A (fun _ => True)
      (containerValues Datum.values Datum.content .array) (List.flatMap Datum.content))
    (hobject : Reads storage (container .object) (fun t => t.head? = some 123) O (fun _ => True)
      (containerValues (memberValues Datum.values) (memberContent Datum.content) .object)
      (List.flatMap (memberContent Datum.content)))
    (hA : ∀ {u xs}, A u xs → u.head? = some 91) (hO : ∀ {u xs}, O u xs → u.head? = some 123) :
    Reads storage (readValueWith storage container) (fun _ => True) (Led (Cases A O))
      (Past goesOn) Datum.values Datum.content := by
  constructor
  · intro r r' _ h
    obtain ⟨w, hw, htext, -⟩ := skip_split r
    -- The value, and the spaces before it.
    have hled : ∀ {u : List UInt8} {v : Datum}, Cases A O u v → r.skipSpace.text = u ++ r'.text →
        r'.values = r.values ++ v.values r.values.length r.bytes.length →
        r'.bytes = r.bytes ++ v.content → ∃ u v, Led (Cases A O) u v ∧ r.text = u ++ r'.text ∧
          r'.values = r.values ++ v.values r.values.length r.bytes.length ∧
          r'.bytes = r.bytes ++ v.content := by
      intro u v hv hu hvalues hbytes
      refine ⟨w ++ u, v, Led.mk hw hv, ?_, hvalues, hbytes⟩
      rw [htext, hu, List.append_assoc]
    rw [readValueWith] at h
    cases hskip : r.skipSpace.text with
    | nil =>
      simp only [hskip] at h
      cases h
    | cons b t =>
      simp only [hskip] at h
      have hhead : r.skipSpace.text.head? = some b := by rw [hskip]; rfl
      split at h
      next hb =>
        rw [hb] at hhead
        obtain ⟨u, members, hu, htext', hvalues, hbytes⟩ := hobject.sound hhead h
        refine hled (Or.inr (Or.inr ⟨members, rfl, hu⟩)) htext' ?_ ?_
        · rw [values_object]
          exact hvalues
        · rw [Datum.content, contentMembers_eq]
          exact hbytes
      next =>
      split at h
      next hb =>
        rw [hb] at hhead
        obtain ⟨u, items, hu, htext', hvalues, hbytes⟩ := harray.sound hhead h
        refine hled (Or.inr (Or.inl ⟨items, rfl, hu⟩)) htext' ?_ ?_
        · rw [values_array]
          exact hvalues
        · rw [Datum.content, contentItems_eq]
          exact hbytes
      next =>
      split at h
      next hb =>
        rw [hb] at hhead
        obtain ⟨u, d, hu, htext', hvalues, hbytes⟩ := reads_string.sound hhead h
        exact hled (Or.inl (Scalar.string hu)) htext' hvalues hbytes
      next =>
      split at h
      next =>
        obtain ⟨htext', hvalues, hbytes⟩ := word_sound h
        exact hled (Or.inl Scalar.yes) htext' hvalues (hbytes.trans (List.append_nil _).symm)
      next =>
      split at h
      next =>
        obtain ⟨htext', hvalues, hbytes⟩ := word_sound h
        exact hled (Or.inl Scalar.no) htext' hvalues (hbytes.trans (List.append_nil _).symm)
      next =>
      split at h
      next =>
        obtain ⟨htext', hvalues, hbytes⟩ := word_sound h
        exact hled (Or.inl Scalar.null) htext' hvalues (hbytes.trans (List.append_nil _).symm)
      next =>
      split at h
      next =>
        obtain ⟨u, spelling, ⟨hu, rfl⟩, htext', hvalues, hbytes⟩ := reads_number.sound trivial h
        exact hled (Or.inl (Scalar.number hu)) htext' hvalues hbytes
      next => cases h
  · intro hstorage u v hv rest hrest vs bs
    obtain ⟨hw, hcases⟩ := hv
    rename_i w u
    -- The reader at the value's first byte.
    have hskip : ∀ {b t}, u = b :: t → isSpace b = false →
        skipSpace ⟨vs, bs, w ++ u ++ rest⟩ = ⟨vs, bs, b :: (t ++ rest)⟩ := by
      rintro b t rfl hb
      rw [List.append_assoc]
      exact skip_eq hw (past_space hb)
    have hcons : ∀ {b : UInt8}, u.head? = some b → u = b :: u.tail := by
      intro b hu
      cases u with
      | nil => cases hu
      | cons c t =>
        cases hu
        rfl
    rw [readValueWith]
    rcases hcases with hscalar | ⟨items, rfl, hitems⟩ | ⟨members, rfl, hmembers⟩
    · cases hscalar with
      | null =>
        simp only [hskip rfl (show isSpace 110 = false by decide)]
        rw [if_neg (by decide), if_neg (by decide), if_neg (by decide), if_neg (by decide),
          if_neg (by decide), if_pos trivial, Datum.content, List.append_nil]
        exact word_complete hstorage vs bs [110, 117, 108, 108] rest .null
      | no =>
        simp only [hskip rfl (show isSpace 102 = false by decide)]
        rw [if_neg (by decide), if_neg (by decide), if_neg (by decide), if_neg (by decide),
          if_pos trivial, Datum.content, List.append_nil]
        exact word_complete hstorage vs bs [102, 97, 108, 115, 101] rest .no
      | yes =>
        simp only [hskip rfl (show isSpace 116 = false by decide)]
        rw [if_neg (by decide), if_neg (by decide), if_neg (by decide), if_pos trivial,
          Datum.content, List.append_nil]
        exact word_complete hstorage vs bs [116, 114, 117, 101] rest .yes
      | number h =>
        obtain ⟨b, t, rfl, hb⟩ := h.head
        simp only [hskip rfl (not_space_of_startsNumber hb)]
        rw [if_neg (ne_of_startsNumber hb (by decide)), if_neg (ne_of_startsNumber hb (by decide)),
          if_neg (ne_of_startsNumber hb (by decide)), if_neg (ne_of_startsNumber hb (by decide)),
          if_neg (ne_of_startsNumber hb (by decide)), if_neg (ne_of_startsNumber hb (by decide))]
        refine (if_pos hb).trans ?_
        exact reads_number.complete hstorage ⟨h, rfl⟩ hrest vs bs
      | string h =>
        obtain ⟨t, rfl⟩ := h.head
        simp only [hskip rfl (show isSpace 34 = false by decide)]
        exact reads_string.complete hstorage h trivial vs bs
    · have hu := hcons (hA hitems)
      simp only [hskip hu (show isSpace 91 = false by decide)]
      have hread : container .array ⟨vs, bs, u ++ rest⟩ = _ :=
        harray.complete hstorage hitems trivial vs bs
      rw [hu] at hread
      rw [values_array, Datum.content, contentItems_eq]
      exact hread
    · have hu := hcons (hO hmembers)
      simp only [hskip hu (show isSpace 123 = false by decide)]
      have hread : container .object ⟨vs, bs, u ++ rest⟩ = _ :=
        hobject.complete hstorage hmembers trivial vs bs
      rw [hu] at hread
      rw [values_object, Datum.content, contentMembers_eq]
      exact hread

lemma not_goesOn_of_isSpace {b : UInt8} (h : isSpace b = true) : goesOn b = false := by
  simp only [isSpace, Bool.or_eq_true, beq_iff_eq] at h
  rcases h with ((rfl | rfl) | rfl) | rfl <;> decide

/-- A number, or nothing, does not go on past an item. -/
lemma past_item {close : UInt8} (hclose : goesOn close = false) {w t : List UInt8} {b : UInt8}
    (hw : Spaces w) (hb : b = 44 ∨ b = close) : Past goesOn (w ++ b :: t) := by
  cases w with
  | nil =>
    refine past_cons.mpr ?_
    rcases hb with rfl | rfl
    · decide
    · exact hclose
  | cons c w =>
    exact past_cons.mpr (not_goesOn_of_isSpace (hw c List.mem_cons_self))

/-- The values of the grammar, and the spaces before them. -/
theorem reads_value (levels : ℕ) : Reads storage (readValue storage levels) (fun _ => True)
    (Led (IsValue levels)) (Past goesOn) Datum.values Datum.content := by
  induction levels with
  | zero =>
    rw [isValue_zero]
    refine reads_valueWith ?_ ?_ (fun h => h.elim) (fun h => h.elim)
    · constructor
      · rintro r r' - h
        cases h
      · rintro - u xs h
        exact h.elim
    · constructor
      · rintro r r' - h
        cases h
      · rintro - u xs h
        exact h.elim
  | succ levels ih =>
    rw [isValue_succ]
    have hvalue : Starts (IsValue levels) 93 := by
      intro u v h
      obtain ⟨b, t, hu, hspace, hb, -⟩ := h.head
      exact ⟨b, t, hu, hspace, hb⟩
    have hmember : Starts (Member (IsValue levels)) 125 := by
      intro u member h
      obtain ⟨t, hu⟩ := h.head
      exact ⟨34, t, hu, by decide⟩
    refine reads_valueWith ?_ ?_ (fun h => h.head) (fun h => h.head)
    · exact reads_container (reads_item ih) (past_item (by decide)) (by decide) rfl hvalue 91
    · exact reads_container (reads_member ih) (past_item (by decide)) (by decide) rfl hmember 123

end

end Reader

/-! ### A text -/

/-- The tree of what a text means. -/
def Datum.tree (v : Datum) : Tree := ⟨v.values 0 0, v.content⟩

/-- A read that answers OK has read a text of the grammar, and its tree is what the text means. -/
theorem jsonRead_sound {storage : ℕ → Bool} {t : List UInt8} {tree : Tree}
    (h : jsonRead storage t = .ok tree) : ∃ v, IsText t v ∧ tree = v.tree := by
  rw [jsonRead] at h
  cases hread : Reader.readValue storage maxDepth ⟨[], [], t⟩ with
  | error status =>
    rw [hread] at h
    cases h
  | ok r =>
    rw [hread, Reader.ok_bind] at h
    obtain ⟨u, v, ⟨hw, hv⟩, htext, hvalues, hbytes⟩ :=
      (Reader.reads_value maxDepth).sound trivial hread
    obtain ⟨w, hw', hskip, -⟩ := Reader.skip_split r
    dsimp only at h
    split at h
    next hnil =>
      refine ⟨v, ?_, ?_⟩
      · rw [hskip, hnil, List.append_nil, List.append_assoc] at htext
        rw [show t = _ from htext]
        exact Spaced.mk hw hv hw'
      · rw [← Except.ok.inj h, Datum.tree]
        exact congrArg₂ Tree.mk hvalues hbytes
    next => cases h

/-- A text of the grammar is read where storage can be had. -/
theorem jsonRead_complete {storage : ℕ → Bool} (hstorage : ∀ n, storage n = true) {t : List UInt8}
    {v : Datum} (h : IsText t v) : jsonRead storage t = .ok v.tree := by
  obtain ⟨hbefore, hv, hafter⟩ := h
  rename_i before u after
  have hpast : Past Reader.goesOn after := by
    cases after with
    | nil => exact past_nil _
    | cons b after =>
      exact past_cons.mpr (Reader.not_goesOn_of_isSpace (hafter b List.mem_cons_self))
  have hread := (Reader.reads_value maxDepth).complete hstorage (Reader.Led.mk hbefore hv) hpast [] []
  have hskip : ∀ vs bs, Reader.skipSpace ⟨vs, bs, after⟩ = ⟨vs, bs, []⟩ := by
    intro vs bs
    have heq : Reader.skipSpace ⟨vs, bs, after ++ []⟩ = ⟨vs, bs, []⟩ :=
      Reader.skip_eq hafter (past_nil isSpace)
    rwa [List.append_nil] at heq
  rw [jsonRead, ← List.append_assoc, hread, Reader.ok_bind]
  simp only [hskip, if_true]
  rfl

end MarkdownCore.Json
