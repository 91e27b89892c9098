import MarkdownCore.Lsp.Json.Reader

/-!
# The scanners of the reader

What the reader takes for spaces, a string and a number is what the grammar derives: a scanner that
answers has taken a derivation (`sound`), and one before which a derivation stands takes it whole,
where nothing goes on that the derivation could (`complete`).
-/

namespace MarkdownCore.Json

/-! ### Spaces -/

/-- A text that does not start with a byte of some. -/
def Past (p : UInt8 → Bool) (t : List UInt8) : Prop := ∀ b ∈ t.head?, p b = false

lemma past_nil (p : UInt8 → Bool) : Past p [] := by
  intro b hb
  cases hb

lemma past_cons {p : UInt8 → Bool} {b : UInt8} {t : List UInt8} : Past p (b :: t) ↔ p b = false := by
  simp [Past]

lemma past_dropWhile (p : UInt8 → Bool) (t : List UInt8) : Past p (t.dropWhile p) := by
  induction t with
  | nil => exact past_nil p
  | cons b t ih =>
    cases hb : p b with
    | true => rwa [List.dropWhile_cons_of_pos hb]
    | false =>
      rw [List.dropWhile_cons_of_neg (by simp [hb])]
      exact past_cons.mpr hb

/-- A run of bytes, and what it stops at. -/
lemma takeWhile_append_past {p : UInt8 → Bool} {w t : List UInt8} (hw : ∀ b ∈ w, p b = true)
    (ht : Past p t) : (w ++ t).takeWhile p = w ∧ (w ++ t).dropWhile p = t := by
  have hstop : t.takeWhile p = [] ∧ t.dropWhile p = t := by
    cases t with
    | nil => exact ⟨rfl, rfl⟩
    | cons b t =>
      have hb := past_cons.mp ht
      exact ⟨List.takeWhile_cons_of_neg (by simp [hb]), List.dropWhile_cons_of_neg (by simp [hb])⟩
  rw [List.takeWhile_append_of_pos hw, List.dropWhile_append_of_pos hw, hstop.1, hstop.2]
  exact ⟨List.append_nil w, rfl⟩

lemma mem_takeWhile {p : UInt8 → Bool} {t : List UInt8} {b : UInt8} (h : b ∈ t.takeWhile p) :
    p b = true := List.all_eq_true.mp List.all_takeWhile b h

/-! ### Units -/

lemma escapeUnit_append {digits : List UInt8} (h : digits.length = 4) (t : List UInt8) :
    escapeUnit (digits ++ t) = escapeUnit digits := by
  match digits, h with
  | [_, _, _, _], _ => rfl

lemma escapeUnit_split {t : List UInt8} {unit : ℕ} (h : escapeUnit t = some unit) :
    ∃ digits rest, t = digits ++ rest ∧ digits.length = 4 ∧ escapeUnit digits = some unit := by
  match t, h with
  | a :: b :: c :: d :: rest, h => exact ⟨[a, b, c, d], rest, rfl, rfl, h⟩

lemma lowAfter_of_ne {a : UInt8} (h : a ≠ 92) (t : List UInt8) : lowAfter (a :: t) = none := by
  cases t with
  | nil => rfl
  | cons b t => exact if_neg fun hescape => h hescape.1

lemma lowAfter_letter {b : UInt8} (h : b ≠ 117) (t : List UInt8) :
    lowAfter (92 :: b :: t) = none := if_neg fun hescape => h hescape.2

lemma lowAfter_append {u : List UInt8} {low : ℕ} (h : lowAfter u = some low) (t : List UInt8) :
    lowAfter (u ++ t) = some low := by
  match u, h with
  | a :: b :: u, h =>
    simp only [lowAfter, List.cons_append] at h ⊢
    split at h
    next hescape =>
      obtain ⟨hunit, -⟩ := Option.filter_eq_some_iff.mp h
      obtain ⟨digits, rest, rfl, hlength, hdigits⟩ := escapeUnit_split hunit
      rw [escapeUnit_append hlength] at h
      rwa [if_pos hescape, List.append_assoc, escapeUnit_append hlength]
    next => cases h

lemma ne_backslash {b : UInt8} (h : isPlain b = true) : b ≠ 92 := by
  rintro rfl
  exact absurd h (by decide)

lemma eq_backslash {b : UInt8} (h : isPlain b = false) (hcontrol : ¬ b.toNat < 32)
    (hquote : b ≠ 34) : b = 92 := by
  by_contra hne
  simp only [isPlain, Bool.and_eq_false_iff, bne_eq_false_iff_eq, decide_eq_false_iff_not] at h
  rcases h with (h | h) | h
  · exact hquote h
  · exact hne h
  · exact h (not_lt.mp hcontrol)

lemma ne_u {b byte : UInt8} (h : letterByte b = some byte) : b ≠ 117 := by
  rintro rfl
  rw [show letterByte 117 = none by decide] at h
  cases h

/-- What follows characters does not make an escape of them. -/
lemma Chars.lowAfter_append {u d : List UInt8} (h : Chars u d) (t : List UInt8) :
    lowAfter (u ++ 34 :: t) = lowAfter u := by
  cases h with
  | nil => exact lowAfter_of_ne (by decide) t
  | plain hb h =>
    have hne := ne_backslash hb
    rw [List.cons_append, lowAfter_of_ne hne, lowAfter_of_ne hne]
  | letter hb h =>
    have hne := ne_u hb
    rw [List.cons_append, List.cons_append, lowAfter_letter hne, lowAfter_letter hne]
  | unit hlength hunit halone h =>
    simp only [lowAfter, List.cons_append, List.append_assoc]
    rw [escapeUnit_append hlength, escapeUnit_append hlength]
  | pair hlength hhigh his hlength' hlow his' h =>
    simp only [lowAfter, List.cons_append, List.append_assoc]
    rw [escapeUnit_append hlength, escapeUnit_append hlength]

lemma Chars.run {w u d : List UInt8} (hw : ∀ b ∈ w, isPlain b = true) (h : Chars u d) :
    Chars (w ++ u) (w ++ d) := by
  induction w with
  | nil => exact h
  | cons b w ih =>
    exact Chars.plain (hw b List.mem_cons_self) (ih fun c hc => hw c (List.mem_cons_of_mem _ hc))

/-- The characters of the grammar are those that mean something. -/
theorem characters_iff {u : List UInt8} : Characters u ↔ ∃ d, Chars u d := by
  constructor
  · intro h
    induction h with
    | nil => exact ⟨[], Chars.nil⟩
    | unescaped hb h ih =>
      obtain ⟨d, hd⟩ := ih
      exact ⟨_, Chars.plain hb hd⟩
    | letter hb h ih =>
      obtain ⟨d, hd⟩ := ih
      exact ⟨_, Chars.letter hb hd⟩
    | @unit digits u unit hlength hunit h ih =>
      obtain ⟨d, hd⟩ := ih
      -- A low surrogate after a high one is read with it.
      by_cases halone : isHigh unit = true → lowAfter u = none
      · exact ⟨_, Chars.unit hlength hunit halone hd⟩
      · obtain ⟨hhigh, hlow⟩ := Classical.not_imp.mp halone
        cases hd with
        | nil => exact absurd rfl hlow
        | plain hb hd => exact absurd (lowAfter_of_ne (ne_backslash hb) _) hlow
        | letter hb hd => exact absurd (lowAfter_letter (ne_u hb) _) hlow
        | @unit digits' u d low hlength' hunit' halone' hd =>
          have his : isLow low = true := by
            by_contra hnot
            refine hlow ?_
            simp [lowAfter, escapeUnit_append hlength', hunit', Option.filter, hnot]
          exact ⟨_, Chars.pair hlength hunit hhigh hlength' hunit' his hd⟩
        | @pair digits' digits'' u d high low hlength' hhigh' his' hlength'' hlow' his'' hd =>
          -- A high surrogate is no low one.
          have hnot : isLow high = false := by
            simp only [isHigh, isLow, Bool.and_eq_true, decide_eq_true_eq] at his' ⊢
            simp only [Bool.and_eq_false_iff, decide_eq_false_iff_not]
            omega
          refine absurd ?_ hlow
          simp [lowAfter, escapeUnit_append hlength', hhigh', Option.filter, hnot]
  · rintro ⟨d, h⟩
    induction h with
    | nil => exact Characters.nil
    | plain hb h ih => exact Characters.unescaped hb ih
    | letter hb h ih => exact Characters.letter hb ih
    | unit hlength hunit halone h ih => exact Characters.unit hlength hunit ih
    | pair hlength hhigh his hlength' hlow his' h ih =>
      exact Characters.unit hlength hhigh (Characters.unit hlength' hlow ih)

namespace Reader

/-- The escape, or the two escapes, that the reader takes for one scalar. -/
lemma readUnit_sound {t rest : List UInt8} {scalar : ℕ} (h : readUnit t = some (scalar, rest))
    {u d tail : List UInt8} (hrest : rest = u ++ 34 :: tail) (hchars : Chars u d) :
    ∃ v, Chars (92 :: 117 :: v) (scalarBytes scalar ++ d) ∧ t = v ++ 34 :: tail := by
  obtain ⟨unit, hunit, heq⟩ := Option.map_eq_some_iff.mp h
  obtain ⟨digits, after, rfl, hlength, hdigits⟩ := escapeUnit_split hunit
  have hdrop : (digits ++ after).drop 4 = after := by rw [← hlength, List.drop_left]
  simp only [hdrop] at heq
  cases hlow : (if isHigh unit then lowAfter after else none) with
  | none =>
    rw [hlow] at heq
    obtain ⟨rfl, rfl⟩ := Prod.mk.inj heq
    refine ⟨digits ++ u, Chars.unit hlength hdigits ?_ hchars, by rw [hrest, List.append_assoc]⟩
    intro hhigh
    rw [if_pos hhigh, hrest, hchars.lowAfter_append] at hlow
    exact hlow
  | some low =>
    rw [hlow] at heq
    obtain ⟨rfl, rfl⟩ := Prod.mk.inj heq
    have hhigh : isHigh unit = true := by
      by_contra hnot
      rw [if_neg hnot] at hlow
      cases hlow
    rw [if_pos hhigh] at hlow
    match after, hlow with
    | a :: b :: after, hlow =>
      simp only [lowAfter] at hlow
      split at hlow
      next hescape =>
        obtain ⟨rfl, rfl⟩ := hescape
        obtain ⟨hunit', his⟩ := Option.filter_eq_some_iff.mp hlow
        obtain ⟨digits', after', rfl, hlength', hdigits'⟩ := escapeUnit_split hunit'
        have hdrop' : (92 :: 117 :: (digits' ++ after')).drop 6 = after' := by
          rw [List.drop_succ_cons, List.drop_succ_cons, ← hlength', List.drop_left]
        rw [hdrop'] at hrest
        refine ⟨digits ++ 92 :: 117 :: (digits' ++ u),
          Chars.pair hlength hdigits hhigh hlength' hdigits' his hchars, ?_⟩
        rw [hrest]
        simp only [List.append_assoc, List.cons_append]
      next => cases hlow

lemma readUnit_unit {digits u d : List UInt8} {unit : ℕ} (hlength : digits.length = 4)
    (hunit : escapeUnit digits = some unit) (halone : isHigh unit = true → lowAfter u = none)
    (h : Chars u d) (tail : List UInt8) :
    readUnit (digits ++ (u ++ 34 :: tail)) = some (unitScalar unit, u ++ 34 :: tail) := by
  have hdrop : (digits ++ (u ++ 34 :: tail)).drop 4 = u ++ 34 :: tail := by
    rw [← hlength, List.drop_left]
  have hlow : (if isHigh unit then lowAfter (u ++ 34 :: tail) else none) = none := by
    split
    next hhigh => rw [h.lowAfter_append, halone hhigh]
    next => rfl
  simp only [readUnit, escapeUnit_append hlength, hunit, Option.map_some, hdrop, hlow]

lemma readUnit_pair {digits digits' u : List UInt8} {high low : ℕ} (hlength : digits.length = 4)
    (hhigh : escapeUnit digits = some high) (his : isHigh high = true)
    (hlength' : digits'.length = 4) (hlow : escapeUnit digits' = some low)
    (his' : isLow low = true) (tail : List UInt8) :
    readUnit (digits ++ 92 :: 117 :: (digits' ++ (u ++ 34 :: tail))) =
      some (pairScalar high low, u ++ 34 :: tail) := by
  have hdrop : (digits ++ 92 :: 117 :: (digits' ++ (u ++ 34 :: tail))).drop 4 =
      92 :: 117 :: (digits' ++ (u ++ 34 :: tail)) := by rw [← hlength, List.drop_left]
  have hdrop' : (92 :: 117 :: (digits' ++ (u ++ 34 :: tail))).drop 6 = u ++ 34 :: tail := by
    rw [List.drop_succ_cons, List.drop_succ_cons, ← hlength', List.drop_left]
  have hafter : lowAfter (92 :: 117 :: (digits' ++ (u ++ 34 :: tail))) = some low := by
    simp [lowAfter, escapeUnit_append hlength', hlow, Option.filter, his']
  simp only [readUnit, escapeUnit_append hlength, hhigh, Option.map_some, hdrop, his, if_true,
    hafter, hdrop']

/-- An escape, before characters and a closing quote. -/
lemma readEscape_sound {t rest bytes : List UInt8} (h : readEscape t = some (bytes, rest))
    {u d tail : List UInt8} (hrest : rest = u ++ 34 :: tail) (hchars : Chars u d) :
    ∃ v, Chars (92 :: v) (bytes ++ d) ∧ t = v ++ 34 :: tail := by
  cases t with
  | nil => cases h
  | cons letter t =>
    rw [readEscape] at h
    cases hbyte : letterByte letter with
    | some byte =>
      rw [hbyte] at h
      obtain ⟨rfl, rfl⟩ := Prod.mk.inj (Option.some.inj h)
      exact ⟨letter :: u, Chars.letter hbyte hchars, by rw [hrest, List.cons_append]⟩
    | none =>
      rw [hbyte] at h
      simp only at h
      split at h
      · cases h
      next hletter =>
        obtain ⟨unit, hunit, heq⟩ := Option.map_eq_some_iff.mp h
        obtain ⟨rfl, rfl⟩ := Prod.mk.inj heq
        obtain ⟨v, hv, ht⟩ := readUnit_sound hunit hrest hchars
        rw [not_not.mp hletter]
        exact ⟨117 :: v, hv, by rw [ht, List.cons_append]⟩

lemma ok_bind {α β : Type} (a : α) (f : α → Except Status β) : (Except.ok a >>= f) = f a := rfl

/-! ### Storage -/

section

variable {storage : ℕ → Bool}

lemma push_sound {r r' : Reader} {kind : Kind} (h : r.push storage kind = .ok r') :
    r' = { r with values := r.values ++ [⟨kind, r.values.length + 1, r.bytes.length, 0⟩] } := by
  rw [push] at h
  split at h
  · exact (Except.ok.inj h).symm
  · cases h

lemma put_sound {r r' : Reader} {bytes : List UInt8} (h : r.put storage bytes = .ok r') :
    r' = { r with bytes := r.bytes ++ bytes } := by
  rw [put] at h
  split at h
  next hnil => rw [← Except.ok.inj h, hnil, List.append_nil]
  next =>
    split at h
    · exact (Except.ok.inj h).symm
    · cases h

variable (hstorage : ∀ n, storage n = true)

include hstorage

lemma push_eq (r : Reader) (kind : Kind) : r.push storage kind =
    .ok { r with values := r.values ++ [⟨kind, r.values.length + 1, r.bytes.length, 0⟩] } :=
  if_pos (hstorage _)

lemma put_eq (r : Reader) (bytes : List UInt8) :
    r.put storage bytes = .ok { r with bytes := r.bytes ++ bytes } := by
  rw [put]
  split
  next hnil => rw [hnil, List.append_nil]
  next => exact if_pos (hstorage _)

end

/-! ### Strings -/

section

variable {storage : ℕ → Bool}

/-- What the loop takes is the characters up to the closing quote. -/
lemma readChars_sound {fuel : ℕ} {r r' : Reader} (h : readChars storage fuel r = .ok r') :
    ∃ u d, Chars u d ∧ r.text = u ++ 34 :: r'.text ∧ r'.values = r.values ∧
      r'.bytes = r.bytes ++ d := by
  induction fuel generalizing r with
  | zero => cases h
  | succ fuel ih =>
    rw [readChars] at h
    cases hput : r.put storage (r.text.takeWhile isPlain) with
    | error status =>
      rw [hput] at h
      cases h
    | ok run =>
      rw [hput] at h
      have hrun := put_sound hput
      have hsplit := List.takeWhile_append_dropWhile (p := isPlain) (l := r.text)
      have hplain : ∀ b ∈ r.text.takeWhile isPlain, isPlain b = true := fun b => mem_takeWhile
      generalize r.text.takeWhile isPlain = w at hrun hsplit hplain
      -- A run, and what a text after it means.
      have hjoin : ∀ {u d : List UInt8}, Chars u d →
          r.text.dropWhile isPlain = u ++ 34 :: r'.text → r'.values = r.values →
          r'.bytes = run.bytes ++ d → ∃ u d, Chars u d ∧ r.text = u ++ 34 :: r'.text ∧
            r'.values = r.values ∧ r'.bytes = r.bytes ++ d := by
        intro u d hchars hdrop hvalues hbytes
        refine ⟨w ++ u, w ++ d, hchars.run hplain, ?_, hvalues, ?_⟩
        · rw [List.append_assoc, ← hdrop, hsplit]
        · rw [hbytes, hrun, List.append_assoc]
      cases hdrop : r.text.dropWhile isPlain with
      | nil =>
        rw [hdrop] at h
        cases h
      | cons b rest =>
        rw [hdrop, ok_bind] at h
        dsimp only at h
        split at h
        next => cases h
        next hcontrol =>
          split at h
          next hquote =>
            -- The closing quote.
            cases Except.ok.inj h
            rw [hquote] at hdrop
            exact hjoin Chars.nil hdrop (by rw [hrun]) (List.append_nil _).symm
          next hquote =>
            cases hescape : readEscape rest with
            | none =>
              rw [hescape] at h
              cases h
            | some escape =>
              obtain ⟨bytes, rest'⟩ := escape
              rw [hescape] at h
              simp only at h
              cases hput' : { run with text := rest' }.put storage bytes with
              | error status =>
                rw [hput'] at h
                cases h
              | ok escaped =>
                rw [hput'] at h
                obtain ⟨u, d, hchars, htext, hvalues, hbytes⟩ := ih h
                rw [put_sound hput'] at htext hvalues hbytes
                obtain ⟨v, hv, hrest⟩ := readEscape_sound hescape htext hchars
                have hb := eq_backslash (past_cons.mp (hdrop ▸ past_dropWhile isPlain r.text))
                  hcontrol hquote
                refine hjoin hv ?_ ?_ ?_
                · rw [hdrop, hb, hrest, List.cons_append]
                · rw [hvalues, hrun]
                · rw [hbytes, List.append_assoc]

section

variable (hstorage : ∀ n, storage n = true)

include hstorage

lemma readChars_plain {b : UInt8} (hb : isPlain b = true) (fuel : ℕ) (vs : List Value)
    (bs t : List UInt8) : readChars storage fuel ⟨vs, bs, b :: t⟩ =
      readChars storage fuel ⟨vs, bs ++ [b], t⟩ := by
  cases fuel with
  | zero => rfl
  | succ fuel =>
    rw [readChars, readChars, put_eq hstorage, put_eq hstorage, List.takeWhile_cons_of_pos hb,
      List.dropWhile_cons_of_pos hb, List.append_assoc, List.singleton_append]
    rfl

lemma readChars_escape {t rest bytes : List UInt8} (h : readEscape t = some (bytes, rest))
    (fuel : ℕ) (vs : List Value) (bs : List UInt8) :
    readChars storage (fuel + 1) ⟨vs, bs, 92 :: t⟩ =
      readChars storage fuel ⟨vs, bs ++ bytes, rest⟩ := by
  rw [readChars, put_eq hstorage]
  simp only [List.takeWhile_cons_of_neg (show ¬ isPlain 92 = true by decide),
    List.dropWhile_cons_of_neg (show ¬ isPlain 92 = true by decide), List.append_nil]
  rw [ok_bind, if_neg (by decide), if_neg (by decide), h]
  simp only
  rw [put_eq hstorage, ok_bind]

lemma readChars_close (fuel : ℕ) (vs : List Value) (bs rest : List UInt8) :
    readChars storage (fuel + 1) ⟨vs, bs, 34 :: rest⟩ = .ok ⟨vs, bs, rest⟩ := by
  rw [readChars, put_eq hstorage]
  simp only [List.takeWhile_cons_of_neg (show ¬ isPlain 34 = true by decide),
    List.dropWhile_cons_of_neg (show ¬ isPlain 34 = true by decide), List.append_nil]
  rfl

/-- Characters before a closing quote are taken whole. -/
lemma readChars_complete {u d : List UInt8} (h : Chars u d) {fuel : ℕ} (hfuel : u.length < fuel)
    (vs : List Value) (bs rest : List UInt8) :
    readChars storage fuel ⟨vs, bs, u ++ 34 :: rest⟩ = .ok ⟨vs, bs ++ d, rest⟩ := by
  induction h generalizing fuel bs with
  | nil =>
    obtain ⟨fuel, rfl⟩ := Nat.exists_eq_succ_of_ne_zero (Nat.ne_zero_of_lt hfuel)
    rw [List.append_nil]
    exact readChars_close hstorage fuel vs bs rest
  | plain hb h ih =>
    rw [List.cons_append, readChars_plain hstorage hb,
      ih (lt_of_le_of_lt (Nat.le_succ _) hfuel), List.append_assoc, List.singleton_append]
  | @letter b byte u d hb h ih =>
    obtain ⟨fuel, rfl⟩ := Nat.exists_eq_succ_of_ne_zero (Nat.ne_zero_of_lt hfuel)
    have hescape : readEscape (b :: (u ++ 34 :: rest)) = some ([byte], u ++ 34 :: rest) := by
      rw [readEscape, hb]
    rw [List.cons_append, List.cons_append, readChars_escape hstorage hescape,
      ih (by simp only [List.length_cons] at hfuel; omega), List.append_assoc,
      List.singleton_append]
  | @unit digits u d unit hlength hunit halone h ih =>
    obtain ⟨fuel, rfl⟩ := Nat.exists_eq_succ_of_ne_zero (Nat.ne_zero_of_lt hfuel)
    have hescape : readEscape (117 :: (digits ++ (u ++ 34 :: rest))) =
        some (scalarBytes (unitScalar unit), u ++ 34 :: rest) := by
      rw [readEscape, show letterByte 117 = none by decide]
      simp only
      rw [if_neg (by simp), readUnit_unit hlength hunit halone h, Option.map_some]
    rw [List.cons_append, List.cons_append, List.append_assoc,
      readChars_escape hstorage hescape,
      ih (by simp only [List.length_cons, List.length_append] at hfuel; omega), List.append_assoc]
  | @pair digits digits' u d high low hlength hhigh his hlength' hlow his' h ih =>
    obtain ⟨fuel, rfl⟩ := Nat.exists_eq_succ_of_ne_zero (Nat.ne_zero_of_lt hfuel)
    have hescape : readEscape (117 :: (digits ++ 92 :: 117 :: (digits' ++ (u ++ 34 :: rest)))) =
        some (scalarBytes (pairScalar high low), u ++ 34 :: rest) := by
      rw [readEscape, show letterByte 117 = none by decide]
      simp only
      rw [if_neg (by simp), readUnit_pair hlength hhigh his hlength' hlow his', Option.map_some]
    simp only [List.cons_append, List.append_assoc]
    rw [readChars_escape hstorage hescape,
      ih (by simp only [List.length_cons, List.length_append] at hfuel; omega), List.append_assoc]

end

/-! ### Numbers -/

lemma decimals_sound {t rest : List UInt8} (h : decimals t = some rest) :
    ∃ u, Digits u ∧ t = u ++ rest := by
  rw [decimals] at h
  split at h
  next => cases h
  next hne =>
    refine ⟨t.takeWhile isDigit, ⟨hne, fun b hb => mem_takeWhile hb⟩, ?_⟩
    rw [← Option.some.inj h, List.takeWhile_append_dropWhile]

lemma decimals_complete {u rest : List UInt8} (h : Digits u) (hrest : Past isDigit rest) :
    decimals (u ++ rest) = some rest := by
  obtain ⟨htake, hdrop⟩ := takeWhile_append_past h.2 hrest
  rw [decimals, htake, hdrop, if_neg h.1]

/-- Bytes that a number goes on with. -/
def goesOn (b : UInt8) : Bool := isDigit b || b == 46 || b == 101 || b == 69

lemma past_digit {t : List UInt8} (h : Past goesOn t) : Past isDigit t := by
  intro b hb
  have hnot := h b hb
  simp only [goesOn, Bool.or_eq_false_iff] at hnot
  exact hnot.1.1.1

lemma fraction_sound {t rest : List UInt8} (h : fraction t = some rest) :
    ∃ u, Frac u ∧ t = u ++ rest := by
  rw [fraction] at h
  split at h
  next hdot =>
    cases t with
    | nil => cases hdot
    | cons b t =>
      cases hdot
      obtain ⟨u, hu, ht⟩ := decimals_sound h
      exact ⟨46 :: u, Frac.some hu, by rw [List.cons_append, ← ht, List.tail_cons]⟩
  next =>
    cases Option.some.inj h
    exact ⟨[], Frac.none, rfl⟩

lemma fraction_complete {u rest : List UInt8} (h : Frac u) (hrest : Past isDigit rest)
    (hdot : Past (· == 46) rest) : fraction (u ++ rest) = some rest := by
  cases h with
  | none =>
    refine if_neg fun heq => ?_
    exact absurd (hdot 46 heq) (by decide)
  | some h => exact (if_pos rfl).trans (decimals_complete h hrest)

lemma exponent_sound {t rest : List UInt8} (h : exponent t = some rest) :
    ∃ u, Exponent u ∧ t = u ++ rest := by
  rw [exponent] at h
  split at h
  next he =>
    cases t with
    | nil => cases he
    | cons e t =>
      have hletter : e = 101 ∨ e = 69 := by simpa using he
      obtain ⟨u, hu, ht⟩ := decimals_sound h
      rw [List.tail_cons, after] at ht
      cases t with
      | nil => exact ⟨e :: ([] ++ u), Exponent.some hletter (Or.inl rfl) hu, by simpa using ht⟩
      | cons s t =>
        split at ht
        next hs =>
          have hs : s = 43 ∨ s = 45 := by simpa using hs
          refine ⟨e :: ([s] ++ u), Exponent.some hletter (Or.inr ?_) hu, ?_⟩
          · exact hs.imp (fun heq => by rw [heq]) fun heq => by rw [heq]
          · rw [List.tail_cons] at ht
            rw [ht]
            rfl
        next =>
          exact ⟨e :: ([] ++ u), Exponent.some hletter (Or.inl rfl) hu, by rw [ht]; rfl⟩
  next =>
    cases Option.some.inj h
    exact ⟨[], Exponent.none, rfl⟩

lemma digits_head {u : List UInt8} (h : Digits u) : ∃ b t, u = b :: t ∧ isDigit b = true := by
  cases u with
  | nil => exact absurd rfl h.1
  | cons b t => exact ⟨b, t, rfl, h.2 b List.mem_cons_self⟩

lemma not_digit_of {b : UInt8} {c : UInt8} (h : isDigit b = true) (hc : isDigit c = false) :
    b ≠ c := by
  rintro rfl
  rw [h] at hc
  cases hc

lemma exponent_complete {u rest : List UInt8} (h : Exponent u) (hrest : Past goesOn rest) :
    exponent (u ++ rest) = some rest := by
  cases h with
  | none =>
    refine if_neg fun he => ?_
    cases rest with
    | nil => cases he
    | cons b rest =>
      have hb := past_cons.mp hrest
      simp only [goesOn, Bool.or_eq_false_iff, beq_eq_false_iff_ne] at hb
      simp only [List.nil_append, List.head?_cons, Option.any_some, Bool.or_eq_true,
        decide_eq_true_eq] at he
      exact he.elim hb.1.2 hb.2
  | @some e sign u he hsign h =>
    have hafter : after (fun b => b = 43 || b = 45) (sign ++ u ++ rest) = u ++ rest := by
      obtain ⟨b, t, rfl, hb⟩ := digits_head h
      rcases hsign with rfl | rfl | rfl
      · have hplus := not_digit_of hb (show isDigit 43 = false by decide)
        have hminus := not_digit_of hb (show isDigit 45 = false by decide)
        exact if_neg (by simp [hplus, hminus])
      · rfl
      · rfl
    refine (if_pos ?_).trans ?_
    · simpa using he
    · rw [List.cons_append, List.tail_cons, hafter]
      exact decimals_complete h (past_digit hrest)

lemma numberEnd_sound {t rest : List UInt8} (h : numberEnd t = some rest) :
    ∃ u, Number u ∧ t = u ++ rest := by
  rw [numberEnd] at h
  obtain ⟨rest₁, hwhole, h⟩ := Option.bind_eq_some_iff.mp h
  obtain ⟨rest₂, hfraction, hexponent⟩ := Option.bind_eq_some_iff.mp h
  obtain ⟨frac, hfrac, rfl⟩ := fraction_sound hfraction
  obtain ⟨expo, hexpo, rfl⟩ := exponent_sound hexponent
  have hminus : ∃ minus, (minus = [] ∨ minus = [45]) ∧ t = minus ++ after (· = 45) t := by
    rw [after]
    split
    next hb =>
      cases t with
      | nil => cases hb
      | cons b t =>
        have hb : b = 45 := by simpa using hb
        exact ⟨[45], Or.inr rfl, by rw [hb]; rfl⟩
    next => exact ⟨[], Or.inl rfl, rfl⟩
  obtain ⟨minus, hminus, ht⟩ := hminus
  have hunsigned : ∃ whole, Whole whole ∧ after (· = 45) t = whole ++ (frac ++ (expo ++ rest)) := by
    generalize after (fun b => decide (b = 45)) t = unsigned at hwhole
    split at hwhole
    next hzero =>
      cases unsigned with
      | nil => cases hzero
      | cons b unsigned =>
        cases hzero
        refine ⟨[48], Whole.zero, ?_⟩
        rw [← Option.some.inj hwhole]
        rfl
    next hzero =>
      obtain ⟨u, hu, hunsigned⟩ := decimals_sound hwhole
      obtain ⟨b, u, rfl, -⟩ := digits_head hu
      refine ⟨b :: u, Whole.digits hu ?_, hunsigned⟩
      rintro rfl
      rw [hunsigned] at hzero
      exact hzero rfl
  obtain ⟨whole, hwhole, hunsigned⟩ := hunsigned
  refine ⟨_, Number.mk hminus hwhole hfrac hexpo, ?_⟩
  rw [ht, hunsigned]
  simp only [List.append_assoc]

/-- What follows the whole part of a number is no digit. -/
lemma past_digit_frac {frac expo rest : List UInt8} (hfrac : Frac frac) (hexpo : Exponent expo)
    (hrest : Past goesOn rest) :
    Past isDigit (expo ++ rest) ∧ Past (· == 46) (expo ++ rest) ∧
      Past isDigit (frac ++ (expo ++ rest)) := by
  have hexponent : Past isDigit (expo ++ rest) ∧ Past (· == 46) (expo ++ rest) := by
    cases hexpo with
    | none =>
      refine ⟨past_digit hrest, fun b hb => ?_⟩
      have hnot := hrest b hb
      simp only [goesOn, Bool.or_eq_false_iff] at hnot
      exact hnot.1.1.2
    | some he hsign h => rcases he with rfl | rfl <;> exact ⟨past_cons.mpr rfl, past_cons.mpr rfl⟩
  refine ⟨hexponent.1, hexponent.2, ?_⟩
  cases hfrac with
  | none => exact hexponent.1
  | some h => exact past_cons.mpr rfl

lemma numberEnd_complete {u rest : List UInt8} (h : Number u) (hrest : Past goesOn rest) :
    numberEnd (u ++ rest) = some rest := by
  obtain ⟨hminus, hwhole, hfrac, hexpo⟩ := h
  rename_i minus whole frac expo
  obtain ⟨hdigit, hdot, hdigit'⟩ := past_digit_frac hfrac hexpo hrest
  have hunsigned : after (· = 45) (minus ++ (whole ++ (frac ++ (expo ++ rest)))) =
      whole ++ (frac ++ (expo ++ rest)) := by
    rcases hminus with rfl | rfl
    · cases hwhole with
      | zero => rfl
      | digits h hb =>
        have hne := not_digit_of (h.2 _ List.mem_cons_self) (show isDigit 45 = false by decide)
        exact if_neg (by simp [hne])
    · rfl
  have hafter : (if (whole ++ (frac ++ (expo ++ rest))).head? = some 48 then
      some (whole ++ (frac ++ (expo ++ rest))).tail
      else decimals (whole ++ (frac ++ (expo ++ rest)))) = some (frac ++ (expo ++ rest)) := by
    cases hwhole with
    | zero => rfl
    | digits h hb =>
      rw [if_neg (by simpa using hb)]
      exact decimals_complete h hdigit'
  simp only [List.append_assoc]
  rw [numberEnd]
  simp only [hunsigned, hafter, Option.bind_some]
  rw [fraction_complete hfrac hdigit hdot, Option.bind_some, exponent_complete hexpo hrest]

end

end Reader

end MarkdownCore.Json
