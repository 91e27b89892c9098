import MarkdownCore.Lsp.Json.ReadRun

/-!
# Reading a container

The items of an array and the members of an object are read by one loop. It takes the items the
grammar lists, up to the bracket that closes them, and lays them out one after the other.
-/

namespace MarkdownCore.Json

/-! ### A list, laid out -/

section

variable {ι : Type} (values : ι → ℕ → ℕ → List Value) (content : ι → List UInt8)

/-- One after the other. -/
def layout : List ι → ℕ → ℕ → List Value
  | [], _, _ => []
  | x :: xs, index, start =>
    values x index start ++
      layout xs (index + (values x index start).length) (start + (content x).length)

/-- A container, and its list. -/
def containerValues (kind : Kind) (xs : List ι) (index start : ℕ) : List Value :=
  let inside := layout values content xs (index + 1) start
  ⟨kind, index + 1 + inside.length, start, 0⟩ :: inside

/-- The values of a member: its name, and its value. -/
def memberValues (values : ι → ℕ → ℕ → List Value) (member : List UInt8 × ι)
    (index start : ℕ) : List Value :=
  ⟨.string, index + 1, start, member.1.length⟩ ::
    values member.2 (index + 1) (start + member.1.length)

def memberContent (content : ι → List UInt8) (member : List UInt8 × ι) : List UInt8 :=
  member.1 ++ content member.2

end

lemma contentItems_eq (items : List Datum) : contentItems items = items.flatMap Datum.content := by
  induction items with
  | nil => rfl
  | cons v items ih => rw [contentItems, ih, List.flatMap_cons]

lemma contentMembers_eq (members : List (List UInt8 × Datum)) :
    contentMembers members = members.flatMap (memberContent Datum.content) := by
  induction members with
  | nil => rfl
  | cons member members ih => rw [contentMembers, ih, List.flatMap_cons, memberContent]

lemma valuesItems_eq (items : List Datum) (index start : ℕ) :
    valuesItems items index start = layout Datum.values Datum.content items index start := by
  induction items generalizing index start with
  | nil => rfl
  | cons v items ih => rw [valuesItems, layout, ih]

lemma valuesMembers_eq (members : List (List UInt8 × Datum)) (index start : ℕ) :
    valuesMembers members index start =
      layout (memberValues Datum.values) (memberContent Datum.content) members index start := by
  induction members generalizing index start with
  | nil => rfl
  | cons member members ih =>
    rw [valuesMembers, layout, ih]
    simp only [memberValues, memberContent, List.length_cons]
    rw [Nat.add_assoc index 1, Nat.add_comm 1]

lemma values_array (items : List Datum) : Datum.values (.array items) =
    containerValues Datum.values Datum.content .array items := by
  funext index start
  rw [Datum.values, containerValues, valuesItems_eq]

lemma values_object (members : List (List UInt8 × Datum)) : Datum.values (.object members) =
    containerValues (memberValues Datum.values) (memberContent Datum.content) .object members := by
  funext index start
  rw [Datum.values, containerValues, valuesMembers_eq]

/-! ### Spaces about a list -/

section

variable {ι : Type} {P : List UInt8 → ι → Prop}

lemma Spaces.append {w w' : List UInt8} (hw : Spaces w) (hw' : Spaces w') : Spaces (w ++ w') := by
  intro b hb
  rcases List.mem_append.mp hb with hb | hb
  · exact hw b hb
  · exact hw' b hb

lemma Spaces.nil : Spaces [] := by
  intro b hb
  cases hb

lemma Spaced.lead {w u : List UInt8} {x : ι} (hw : Spaces w) (h : Spaced P u x) :
    Spaced P (w ++ u) x := by
  obtain ⟨hbefore, hx, hafter⟩ := h
  rw [← List.append_assoc]
  exact Spaced.mk (hw.append hbefore) hx hafter

lemma Listed.lead {w u : List UInt8} {xs : List ι} (hw : Spaces w) (h : Listed P u xs) :
    Listed P (w ++ u) xs := by
  cases h with
  | last h => exact Listed.last (h.lead hw)
  | more h hrest =>
    rw [← List.append_assoc]
    exact Listed.more (h.lead hw) hrest

/-- What the grammar derives starts with a byte that is no space and no closing bracket. -/
def Starts (P : List UInt8 → ι → Prop) (close : UInt8) : Prop :=
  ∀ {u x}, P u x → ∃ b t, u = b :: t ∧ isSpace b = false ∧ b ≠ close

/-- A list without the spaces that lead it. -/
lemma Listed.strip {close : UInt8} (hstarts : Starts P close) {u : List UInt8} {xs : List ι}
    (h : Listed P u xs) : ∃ w b t, Spaces w ∧ u = w ++ b :: t ∧ isSpace b = false ∧ b ≠ close ∧
      Listed P (b :: t) xs := by
  have hfirst : ∀ {u x}, Spaced P u x → ∃ w b t, Spaces w ∧ u = w ++ b :: t ∧ isSpace b = false ∧
      b ≠ close ∧ Spaced P (b :: t) x := by
    rintro u x ⟨hbefore, hx, hafter⟩
    obtain ⟨b, t, rfl, hspace, hclose⟩ := hstarts hx
    exact ⟨_, b, t ++ _, hbefore, rfl, hspace, hclose, Spaced.mk Spaces.nil hx hafter⟩
  cases h with
  | last h =>
    obtain ⟨w, b, t, hw, rfl, hspace, hclose, h⟩ := hfirst h
    exact ⟨w, b, t, hw, rfl, hspace, hclose, Listed.last h⟩
  | @more u rest x xs h hrest =>
    obtain ⟨w, b, t, hw, rfl, hspace, hclose, h⟩ := hfirst h
    refine ⟨w, b, t ++ 44 :: rest, hw, ?_, hspace, hclose, Listed.more h hrest⟩
    simp only [List.append_assoc, List.cons_append]

lemma Listed.length_le {close : UInt8} (hstarts : Starts P close) {u : List UInt8} {xs : List ι}
    (h : Listed P u xs) : xs.length ≤ u.length := by
  have hpos : ∀ {u x}, Spaced P u x → 0 < u.length := by
    rintro u x ⟨-, hx, -⟩
    obtain ⟨b, t, rfl, -⟩ := hstarts hx
    simp
  induction h with
  | last h => exact hpos h
  | more h hrest ih =>
    have h := hpos h
    simp only [List.length_cons, List.length_append]
    omega

end

namespace Reader

section

variable {ι : Type} {storage : ℕ → Bool} {read : Reader → Except Status Reader}
  {P : List UInt8 → ι → Prop} {Ends : List UInt8 → Prop} {values : ι → ℕ → ℕ → List Value}
  {content : ι → List UInt8}

/-! ### An item and a member -/

lemma reads_item (h : Reads storage read (fun _ => True) (Led P) Ends values content) :
    Reads storage (readItem storage read .array) (fun _ => True) (Led P) Ends values content := by
  have heq : readItem storage read .array = read := by
    funext r
    rfl
  rwa [heq]

/-- A member's text, cut after the colon. -/
lemma member_split {u : List UInt8} {member : List UInt8 × Datum}
    {P : List UInt8 → Datum → Prop} : Led (Member P) u member ↔
      ∃ named led, u = named ++ led ∧ Named named member.1 ∧ Led P led member.2 := by
  constructor
  · rintro ⟨hw, hmember⟩
    obtain ⟨hname, hw', hw'', h⟩ := hmember
    refine ⟨_, _, ?_, Named.mk hw hname hw', Led.mk hw'' h⟩
    simp only [List.append_assoc, List.cons_append, List.nil_append]
  · rintro ⟨named, led, rfl, hnamed, hled⟩
    obtain ⟨name, v⟩ := member
    cases hnamed with
    | mk hw hname hw' =>
      cases hled with
      | mk hw'' h =>
        have hmember := Led.mk hw (Member.mk hname hw' hw'' h)
        simpa only [List.append_assoc, List.cons_append, List.nil_append] using hmember

lemma reads_member {P : List UInt8 → Datum → Prop} {values : Datum → ℕ → ℕ → List Value}
    {content : Datum → List UInt8}
    (h : Reads storage read (fun _ => True) (Led P) Ends values content) :
    Reads storage (readItem storage read .object) (fun _ => True) (Led (Member P)) Ends
      (memberValues values) (memberContent content) := by
  constructor
  · intro r r' _ hr
    rw [readItem, if_pos rfl] at hr
    cases hname : r.readName storage with
    | error status =>
      rw [hname] at hr
      cases hr
    | ok named =>
      rw [hname, ok_bind] at hr
      obtain ⟨u, name, hu, htext, hvalues, hbytes⟩ := reads_name.sound trivial hname
      obtain ⟨u', v, hu', htext', hvalues', hbytes'⟩ := h.sound trivial hr
      refine ⟨u ++ u', (name, v), member_split.mpr ⟨u, u', rfl, hu, hu'⟩, ?_, ?_, ?_⟩
      · rw [htext, htext', List.append_assoc]
      · rw [hvalues', hvalues, hbytes, List.append_assoc]
        simp only [stringValues, memberValues, List.length_append, List.length_cons,
          List.length_nil, id_eq, List.cons_append, List.nil_append]
      · rw [hbytes', hbytes, List.append_assoc]
        rfl
  · intro hstorage u member hmember rest hrest vs bs
    obtain ⟨named, led, rfl, hnamed, hled⟩ := member_split.mp hmember
    rw [readItem, if_pos rfl, List.append_assoc, reads_name.complete hstorage hnamed trivial,
      ok_bind]
    refine (h.complete hstorage hled hrest _ _).trans ?_
    simp only [stringValues, memberValues, memberContent, List.length_append, List.length_cons,
      List.length_nil, id_eq, List.append_assoc, List.cons_append, List.nil_append]

/-! ### The loop -/

variable {kind : Kind} {close : UInt8}

/-- The loop takes a list and the bracket that closes it. -/
lemma readItems_sound
    (h : Reads storage (readItem storage read kind) (fun _ => True) (Led P) Ends values content)
    {fuel : ℕ} {r r' : Reader} (hr : readItems storage read kind close fuel r = .ok r') :
    ∃ u xs, Listed P u xs ∧ r.text = u ++ close :: r'.text ∧
      r'.values = r.values ++ layout values content xs r.values.length r.bytes.length ∧
      r'.bytes = r.bytes ++ xs.flatMap content := by
  induction fuel generalizing r with
  | zero => cases hr
  | succ fuel ih =>
    rw [readItems] at hr
    cases hitem : r.readItem storage read kind with
    | error status =>
      rw [hitem] at hr
      cases hr
    | ok item =>
      rw [hitem, ok_bind] at hr
      obtain ⟨u, x, hx, htext, hvalues, hbytes⟩ := h.sound trivial hitem
      obtain ⟨w, hw, hskip, -⟩ := skip_split item
      have hspaced : Spaced P (u ++ w) x := by
        obtain ⟨hbefore, hx⟩ := hx
        rw [List.append_assoc]
        exact Spaced.mk hbefore hx hw
      cases hafter : item.skipSpace.text with
      | nil =>
        simp only [hafter] at hr
        cases hr
      | cons b rest =>
        simp only [hafter] at hr
        rw [hafter] at hskip
        split at hr
        next hb =>
          cases Except.ok.inj hr
          refine ⟨u ++ w, [x], Listed.last hspaced, ?_, ?_, ?_⟩
          · rw [htext, hskip, hb, List.append_assoc]
          · rw [layout, layout, List.append_nil]
            exact hvalues
          · rw [List.flatMap_cons, List.flatMap_nil, List.append_nil]
            exact hbytes
        next hb =>
          split at hr
          next => cases hr
          next hcomma =>
            obtain ⟨u', xs, hlisted, htext', hvalues', hbytes'⟩ := ih hr
            refine ⟨u ++ w ++ 44 :: u', x :: xs, Listed.more hspaced hlisted, ?_, ?_, ?_⟩
            · have htext' : rest = u' ++ close :: r'.text := htext'
              rw [htext, hskip, htext', not_not.mp hcomma]
              simp only [List.append_assoc, List.cons_append]
            · have hvalues' : r'.values = item.values ++
                  layout values content xs item.values.length item.bytes.length := hvalues'
              rw [hvalues', hvalues, hbytes, layout, List.append_assoc, List.length_append,
                List.length_append]
            · have hbytes' : r'.bytes = item.bytes ++ xs.flatMap content := hbytes'
              rw [hbytes', hbytes, List.flatMap_cons, List.append_assoc]

lemma readItems_complete
    (h : Reads storage (readItem storage read kind) (fun _ => True) (Led P) Ends values content)
    (hends : ∀ {w b t}, Spaces w → b = 44 ∨ b = close → Ends (w ++ b :: t))
    (hclose : close ≠ 44 ∧ isSpace close = false) (hstorage : ∀ n, storage n = true)
    {u : List UInt8} {xs : List ι} (hlisted : Listed P u xs) {fuel : ℕ} (hfuel : xs.length ≤ fuel)
    (vs : List Value) (bs rest : List UInt8) :
    readItems storage read kind close fuel ⟨vs, bs, u ++ close :: rest⟩ =
      .ok ⟨vs ++ layout values content xs vs.length bs.length, bs ++ xs.flatMap content, rest⟩ := by
  -- An item, and the spaces after it.
  have hitem : ∀ {u x}, Spaced P u x → ∀ (b : UInt8) (t : List UInt8) (vs : List Value)
      (bs : List UInt8), b = 44 ∨ b = close → ∃ text,
        readItem storage read kind ⟨vs, bs, u ++ b :: t⟩ =
          .ok ⟨vs ++ values x vs.length bs.length, bs ++ content x, text⟩ ∧
        ∀ vs bs, skipSpace ⟨vs, bs, text⟩ = ⟨vs, bs, b :: t⟩ := by
    rintro u x ⟨hbefore, hx, hafter⟩ b t vs bs hb
    rename_i before u after
    refine ⟨after ++ b :: t, ?_, fun vs bs => skip_eq hafter (past_space ?_)⟩
    · have heq : before ++ (u ++ after) ++ b :: t = before ++ u ++ (after ++ b :: t) := by
        simp only [List.append_assoc]
      rw [heq]
      exact h.complete hstorage (Led.mk hbefore hx) (hends hafter hb) vs bs
    · rcases hb with rfl | rfl
      · rfl
      · exact hclose.2
  induction hlisted generalizing fuel vs bs with
  | last hx =>
    obtain ⟨fuel, rfl⟩ := Nat.exists_eq_succ_of_ne_zero (Nat.pos_iff_ne_zero.mp hfuel)
    obtain ⟨text, hread, hskip⟩ := hitem hx close rest vs bs (Or.inr rfl)
    rw [readItems, hread, ok_bind]
    simp only [hskip, if_true, layout, List.append_nil, List.flatMap_cons, List.flatMap_nil]
  | @more u u' x xs hx hlisted ih =>
    obtain ⟨fuel, rfl⟩ := Nat.exists_eq_succ_of_ne_zero
      (Nat.pos_iff_ne_zero.mp (Nat.lt_of_lt_of_le (Nat.succ_pos xs.length) hfuel))
    have hfuel : xs.length ≤ fuel := Nat.le_of_succ_le_succ hfuel
    obtain ⟨text, hread, hskip⟩ := hitem hx 44 (u' ++ close :: rest) vs bs (Or.inl rfl)
    have heq : u ++ 44 :: u' ++ close :: rest = u ++ 44 :: (u' ++ close :: rest) := by
      simp only [List.append_assoc, List.cons_append]
    rw [heq, readItems, hread, ok_bind]
    simp only [hskip]
    rw [if_neg hclose.1.symm, if_neg (by simp), ih hfuel, layout, List.length_append,
      List.length_append, List.append_assoc, List.flatMap_cons, List.append_assoc]

/-- A container, at its opening bracket. -/
theorem reads_container
    (h : Reads storage (readItem storage read kind) (fun _ => True) (Led P) Ends values content)
    (hends : ∀ {w b t}, Spaces w → b = 44 ∨ b = close → Ends (w ++ b :: t))
    (hclose : close ≠ 44 ∧ isSpace close = false)
    (hkind : (if kind = .array then (93 : UInt8) else 125) = close) (hstarts : Starts P close)
    (opening : UInt8) :
    Reads storage (readContainer storage read kind) (fun t => t.head? = some opening)
      (Bracketed P opening close) (fun _ => True) (containerValues values content kind)
      (List.flatMap content) := by
  constructor
  · intro r r' hat hr
    rw [readContainer] at hr
    simp only [hkind] at hr
    cases hpush : r.push storage kind with
    | error status =>
      rw [hpush] at hr
      cases hr
    | ok pushed =>
      rw [hpush, ok_bind] at hr
      obtain ⟨w, hw, htext, -⟩ := skip_split { pushed with text := r.text.tail }
      have hpushed := push_sound hpush
      have hopening : r.text = opening :: r.text.tail := by
        cases ht : r.text with
        | nil =>
          rw [ht] at hat
          cases hat
        | cons b t =>
          rw [ht] at hat
          cases hat
          rfl
      have htext : r.text.tail = w ++ (skipSpace { pushed with text := r.text.tail }).text := htext
      split at hr
      next hb =>
        cases hskip : (skipSpace { pushed with text := r.text.tail }).text with
        | nil =>
          rw [hskip] at hb
          cases hb
        | cons b t =>
          rw [hskip] at hb htext
          cases hb
          have hrest : r'.text = t := by
            rw [← Except.ok.inj hr]
            exact congrArg List.tail hskip
          refine ⟨opening :: (w ++ [close]), [], Bracketed.none hw, ?_, ?_, ?_⟩
          · rw [hopening, htext, hrest]
            simp only [List.append_assoc, List.cons_append, List.nil_append]
          · rw [← Except.ok.inj hr, hpushed]
            rfl
          · rw [← Except.ok.inj hr, hpushed]
            exact (List.append_nil _).symm
      next hb =>
        cases hread : readItems storage read kind close
            (skipSpace { pushed with text := r.text.tail }).text.length
            (skipSpace { pushed with text := r.text.tail }) with
        | error status =>
          rw [hread] at hr
          cases hr
        | ok read =>
          rw [hread, ok_bind] at hr
          obtain ⟨u, xs, hlisted, htext', hvalues, hbytes⟩ := readItems_sound h hread
          have hvalues : read.values = pushed.values ++
              layout values content xs pushed.values.length pushed.bytes.length := hvalues
          have hbytes : read.bytes = pushed.bytes ++ xs.flatMap content := hbytes
          rw [hpushed] at hvalues hbytes
          have hrest : r'.text = read.text := by rw [← Except.ok.inj hr]
          refine ⟨opening :: (w ++ u ++ [close]), xs, Bracketed.some (hlisted.lead hw), ?_, ?_, ?_⟩
          · rw [hopening, htext, htext', hrest]
            simp only [List.append_assoc, List.cons_append, List.nil_append]
          · rw [← Except.ok.inj hr]
            simp only [hvalues, List.append_assoc, List.cons_append, List.nil_append]
            rw [modify_pushed, containerValues]
            simp only [List.length_append, List.length_cons, List.length_nil, Nat.zero_add]
            rw [Nat.add_right_comm, Nat.add_assoc]
          · rw [← Except.ok.inj hr]
            exact hbytes
  · intro hstorage u xs hxs rest _ vs bs
    cases hxs with
    | none hw =>
      rename_i w
      have hskip : ∀ vs bs, skipSpace ⟨vs, bs, w ++ close :: rest⟩ = ⟨vs, bs, close :: rest⟩ :=
        fun vs bs => skip_eq hw (past_space hclose.2)
      rw [readContainer]
      simp only [hkind, push_eq hstorage, ok_bind, List.cons_append, List.append_assoc,
        List.nil_append, List.tail_cons, hskip, List.head?_cons, if_true]
      rw [List.flatMap_nil, List.append_nil]
      rfl
    | some hlisted =>
      rename_i u
      obtain ⟨w, b, t, hw, rfl, hspace, hb, hlisted⟩ := hlisted.strip hstarts
      have hskip : ∀ vs bs, skipSpace ⟨vs, bs, w ++ (b :: (t ++ close :: rest))⟩ =
          ⟨vs, bs, b :: t ++ close :: rest⟩ := fun vs bs => skip_eq hw (past_space hspace)
      have hfuel : xs.length ≤ (b :: t ++ close :: rest).length := by
        have hle := hlisted.length_le hstarts
        rw [List.length_append]
        omega
      rw [readContainer]
      simp only [hkind, push_eq hstorage, ok_bind, List.cons_append, List.append_assoc,
        List.nil_append, List.tail_cons, hskip]
      rw [if_neg (by simpa using hb)]
      have hread := readItems_complete h hends hclose hstorage hlisted hfuel
      simp only [List.cons_append] at hread
      rw [hread, ok_bind]
      simp only [List.append_assoc, List.cons_append, List.nil_append]
      rw [modify_pushed, containerValues]
      simp only [List.length_append, List.length_cons, List.length_nil, Nat.zero_add]
      rw [Nat.add_right_comm, Nat.add_assoc]

end

end Reader

end MarkdownCore.Json
