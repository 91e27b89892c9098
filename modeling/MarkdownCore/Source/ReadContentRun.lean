import Mathlib.Algebra.Order.BigOperators.Group.List
import Mathlib.Algebra.Order.Ring.Int
import MarkdownCore.Source.PlacesRun
import MarkdownCore.Source.ReadContent

/-!
# The places of a content are in order, complete, and read again the same

What each slice adds keeps the places in source order and each content byte in the place of the
source byte its mark gives, and leaves no own source out (`ReadState.Good`). A read stands before a
mark where any other read of the marks before it does, so the read that goes on from there reads
what the whole read does (`read_content_places`).
-/

namespace MarkdownCore.Source

variable {places places' : List SourcePlace}

/-! ### The place of a byte -/

lemma placeOf_append (front back : List SourcePlace) (k : ℕ) :
    placeOf (front ++ back) k =
      if k < contentLength front then placeOf front k else placeOf back (k - contentLength front) := by
  induction front generalizing k with
  | nil => simp [contentLength]
  | cons place front ih =>
    rw [List.cons_append, placeOf, placeOf, contentLength_cons]
    by_cases hlt : k < place.length
    · rw [if_pos hlt, if_pos (by omega), if_pos hlt]
    · rw [if_neg hlt, if_neg hlt, ih]
      by_cases hfront : k - place.length < contentLength front
      · rw [if_pos hfront, if_pos (by omega)]
      · rw [if_neg hfront, if_neg (by omega), Nat.sub_sub]

lemma placeOf_lt {k : ℕ} {place : SourcePlace} (h : placeOf places k = some place) :
    k < contentLength places := by
  induction places generalizing k with
  | nil => cases h
  | cons first places ih =>
    rw [placeOf] at h
    rw [contentLength_cons]
    split at h
    · omega
    · have hlt := ih h
      omega

@[simp] lemma placeOf_own (start stop k : ℕ) : placeOf [⟨start, stop, 0⟩] k = none := by
  simp [placeOf]

lemma lies_append {front back : List SourcePlace} {x : ℕ} :
    InPlaces (front ++ back) x ↔ InPlaces front x ∨ InPlaces back x := by
  simp only [InPlaces, List.mem_append]
  constructor
  · rintro ⟨p, hp | hp, hx⟩
    · exact .inl ⟨p, hp, hx⟩
    · exact .inr ⟨p, hp, hx⟩
  · rintro (⟨p, hp, hx⟩ | ⟨p, hp, hx⟩)
    · exact ⟨p, .inl hp, hx⟩
    · exact ⟨p, .inr hp, hx⟩

lemma lies_singleton {start stop length x : ℕ} :
    InPlaces [⟨start, stop, length⟩] x ↔ start ≤ x ∧ x < stop := by
  simp [InPlaces]

lemma lies_cons {place : SourcePlace} {x : ℕ} :
    InPlaces (place :: places) x ↔ (place.start ≤ x ∧ x < place.stop) ∨ InPlaces places x := by
  rw [show place :: places = [place] ++ places from rfl, lies_append]
  simp [InPlaces]

lemma Placed.concat (h : Placed places) {place : SourcePlace}
    (hends : ∀ p ∈ places, p.stop ≤ place.start) (hle : place.start ≤ place.stop)
    (hreads : 0 < place.length → place.start < place.stop) : Placed (places ++ [place]) := by
  constructor
  · rw [List.pairwise_append]
    refine ⟨h.ordered, List.pairwise_singleton _ _, ?_⟩
    intro p hp q hq
    rw [List.mem_singleton.mp hq]
    exact hends p hp
  · intro p hp
    rcases List.mem_append.mp hp with hp | hp
    · exact h.start_le p hp
    · rw [List.mem_singleton.mp hp]
      exact hle
  · intro p hp
    rcases List.mem_append.mp hp with hp | hp
    · exact h.reads p hp
    · rw [List.mem_singleton.mp hp]
      exact hreads

lemma Placed.front {front : List SourcePlace} {place : SourcePlace} (h : Placed (front ++ [place])) :
    Placed front ∧ ∀ p ∈ front, p.stop ≤ place.start := by
  have hordered := h.ordered
  rw [List.pairwise_append] at hordered
  refine ⟨⟨hordered.1, ?_, ?_⟩, ?_⟩
  · intro p hp
    exact h.start_le p (List.mem_append_left _ hp)
  · intro p hp
    exact h.reads p (List.mem_append_left _ hp)
  · intro p hp
    exact hordered.2.2 p hp place List.mem_cons_self

lemma split_last {place : SourcePlace} (h : places.getLast? = some place) :
    places = places.dropLast ++ [place] := by
  obtain ⟨front, rfl⟩ := List.getLast?_eq_some_iff.mp h
  rw [List.dropLast_concat]

/-! ### Own source -/

/-- The places with more own source, none of it read before, up to `bound`. -/
structure Extends (places places' : List SourcePlace) (bound : ℕ) : Prop where
  placed : Placed places'
  length_eq : contentLength places' = contentLength places
  placeOf_eq : ∀ k, placeOf places' k = placeOf places k
  ends : ∀ p ∈ places', p.stop ≤ bound
  lies : ∀ x, InPlaces places x → InPlaces places' x
  head_eq : places ≠ [] → places'.head?.map (·.start) = places.head?.map (·.start)

lemma Extends.refl (h : Placed places) {bound : ℕ} (hends : ∀ p ∈ places, p.stop ≤ bound) :
    Extends places places bound :=
  ⟨h, rfl, fun _ => rfl, hends, fun _ hx => hx, fun _ => rfl⟩

lemma Extends.trans {places'' : List SourcePlace} {bound bound' : ℕ}
    (h : Extends places places' bound) (h' : Extends places' places'' bound')
    (hne : places ≠ [] → places' ≠ []) : Extends places places'' bound' where
  placed := h'.placed
  length_eq := h'.length_eq.trans h.length_eq
  placeOf_eq k := (h'.placeOf_eq k).trans (h.placeOf_eq k)
  ends := h'.ends
  lies x hx := h'.lies x (h.lies x hx)
  head_eq hplaces := (h'.head_eq (hne hplaces)).trans (h.head_eq hplaces)

lemma addOwn_ne_nil {start stop : ℕ} (hne : places ≠ []) : addOwn places start stop ≠ [] := by
  rw [addOwn]
  split
  · exact hne
  · split
    · split <;> simp
    · simp

/-- Own source from where the places end on. -/
lemma addOwn_extends (h : Placed places) {start stop : ℕ} (hends : ∀ p ∈ places, p.stop ≤ start) :
    Extends places (addOwn places start stop) (max start stop) ∧
      ∀ x, start ≤ x → x < stop → InPlaces (addOwn places start stop) x := by
  rw [addOwn]
  by_cases hempty : stop ≤ start
  · rw [if_pos hempty, max_eq_left hempty]
    exact ⟨.refl h hends, fun x hx hx' => absurd hx' (by omega)⟩
  · rw [if_neg hempty, max_eq_right (by omega)]
    have hconcat : Extends places (places ++ [⟨start, stop, 0⟩]) stop ∧
        ∀ x, start ≤ x → x < stop → InPlaces (places ++ [⟨start, stop, 0⟩]) x := by
      constructor
      · constructor
        · apply h.concat hends
          · show start ≤ stop
            omega
          · intro hpos
            cases hpos
        · simp
        · intro k
          rw [placeOf_append]
          split
          · rfl
          · rw [placeOf_own]
            cases hfound : placeOf places k with
            | none => rfl
            | some p => exact absurd (placeOf_lt hfound) ‹_›
        · intro p hp
          rcases List.mem_append.mp hp with hp | hp
          · exact (hends p hp).trans (by omega)
          · rw [List.mem_singleton.mp hp]
        · intro x hx
          exact lies_append.mpr (.inl hx)
        · intro hne
          rw [List.head?_append_of_ne_nil _ hne]
      · intro x hx hx'
        exact lies_append.mpr (.inr (lies_singleton.mpr ⟨hx, hx'⟩))
    cases hlast : places.getLast? with
    | none =>
      have hnil := List.getLast?_eq_none_iff.mp hlast
      subst hnil
      exact hconcat
    | some previous =>
      by_cases htouch : previous.length = 0 ∧ previous.stop = start
      · simp only [if_pos htouch]
        obtain ⟨hlength, hstop⟩ := htouch
        have hsplit := split_last hlast
        rw [hsplit] at h hends ⊢
        rw [List.dropLast_concat]
        obtain ⟨hfront, hbefore⟩ := h.front
        have hle : previous.start ≤ previous.stop := h.start_le previous (by simp)
        constructor
        · constructor
          · apply @Placed.concat _ hfront ⟨previous.start, stop, previous.length⟩ hbefore
            · show previous.start ≤ stop
              omega
            · intro hpos
              show previous.start < stop
              omega
          · simp
          · intro k
            rw [placeOf_append, placeOf_append]
            split
            · rfl
            · simp [placeOf, hlength]
          · intro p hp
            rcases List.mem_append.mp hp with hp | hp
            · exact (hends p (List.mem_append_left _ hp)).trans (by omega)
            · rw [List.mem_singleton.mp hp]
          · intro x hx
            rcases lies_append.mp hx with hx | hx
            · exact lies_append.mpr (.inl hx)
            · obtain ⟨hx, hx'⟩ := lies_singleton.mp hx
              exact lies_append.mpr (.inr (lies_singleton.mpr ⟨hx, by omega⟩))
          · intro _
            cases places.dropLast <;> rfl
        · intro x hx hx'
          exact lies_append.mpr (.inr (lies_singleton.mpr ⟨by omega, hx'⟩))
      · simp only [if_neg htouch]
        exact hconcat

/-- The lines that end before a slice leave their own source in the places, and the others none. -/
lemma ownLines_extends {source start : ℕ} (hsource : source ≤ start) :
    ∀ {lines : List SourcePlace} {places : List SourcePlace}, Placed places →
      (∀ p ∈ places, p.stop ≤ start) → OwnLines lines →
      (∀ line ∈ lines, ∀ p ∈ places, p.stop ≤ max source line.start) →
      ∃ done, lines = done ++ (ownLines places source start lines).2 ∧
        (∀ line ∈ done, line.stop ≤ start) ∧
        (∀ line ∈ (ownLines places source start lines).2.head?, start < line.stop) ∧
        Extends places (ownLines places source start lines).1 start ∧
        (places ≠ [] → (ownLines places source start lines).1 ≠ []) ∧
        (∀ line ∈ (ownLines places source start lines).2,
          ∀ p ∈ (ownLines places source start lines).1, p.stop ≤ max source line.start) ∧
        ∀ x, source ≤ x → InPlaces done x → InPlaces (ownLines places source start lines).1 x := by
  intro lines
  induction lines with
  | nil =>
    intro places hplaced hends _ _
    refine ⟨[], rfl, by simp, by simp [ownLines], .refl hplaced hends, fun h => h, by simp [ownLines],
      ?_⟩
    rintro x - ⟨p, hp, -⟩
    cases hp
  | cons line lines ih =>
    intro places hplaced hends hlines hbefore
    rw [ownLines]
    by_cases hstop : line.stop ≤ start
    · rw [if_pos hstop]
      have hordered := List.pairwise_cons.mp hlines.ordered
      have hle := hlines.start_le line List.mem_cons_self
      have hlines' : OwnLines lines :=
        ⟨hordered.2, fun l hl => hlines.start_le l (List.mem_cons_of_mem _ hl)⟩
      obtain ⟨hown, hlies⟩ := @addOwn_extends places hplaced (max source line.start) line.stop
        (hbefore line List.mem_cons_self)
      have hends' : ∀ p ∈ addOwn places (max source line.start) line.stop, p.stop ≤ start := by
        intro p hp
        have hp' := hown.ends p hp
        omega
      have hbefore' : ∀ l ∈ lines, ∀ p ∈ addOwn places (max source line.start) line.stop,
          p.stop ≤ max source l.start := by
        intro l hl p hp
        have hp' := hown.ends p hp
        have hl' := hordered.1 l hl
        omega
      obtain ⟨done, hsplit, hdone, hhead, hextends, hne, hafter, hcover⟩ :=
        ih hown.placed hends' hlines' hbefore'
      refine ⟨line :: done, by rw [List.cons_append, ← hsplit], ?_, hhead,
        hown.trans hextends addOwn_ne_nil, fun h => hne (addOwn_ne_nil h), hafter, ?_⟩
      · intro l hl
        rcases List.mem_cons.mp hl with rfl | hl
        · exact hstop
        · exact hdone l hl
      · intro x hx hlies'
        rcases lies_cons.mp hlies' with hin | hlies'
        · exact hextends.lies x (hlies x (by omega) hin.2)
        · exact hcover x hx hlies'
    · rw [if_neg hstop]
      refine ⟨[], rfl, by simp, ?_, .refl hplaced hends, fun h => h, hbefore, ?_⟩
      · intro l hl
        cases Option.some.inj hl
        omega
      · rintro x - ⟨p, hp, -⟩
        cases hp

/-! ### A slice -/

/-- What a read has of the own source where it stands: of its lines, those before are read and the
others are left; with no lines, all between the places. -/
def ReadState.Owns (s : ReadState) : Option (List SourcePlace) → Prop
  | some lines => ∃ done left, s.lines = some left ∧ lines = done ++ left ∧
      (∀ line ∈ done, line.stop ≤ s.source) ∧ ∀ x < s.source, InPlaces lines x → InPlaces s.places x
  | none => s.lines = none ∧ ∀ p ∈ s.places.head?, ∀ x, p.start ≤ x → x < s.source → InPlaces s.places x

/-- The places of the content read so far, the last of them of content, with no own source left out. -/
structure ReadState.Good (s : ReadState) (lines : Option (List SourcePlace)) (read : ℕ) : Prop where
  placed : Placed s.places
  length_eq : contentLength s.places = read
  last_reads : ∀ p ∈ s.places.getLast?, 0 < p.length ∧ p.stop = s.source
  ends : ∀ p ∈ s.places, p.stop ≤ s.source
  fresh : s.places = [] → s.source = 0
  owns : s.Owns lines

/-- Lines of the content's own are in order of the source. -/
def OrderedLines (lines : Option (List SourcePlace)) : Prop := ∀ own, lines = some own → OwnLines own

variable {s : ReadState} {lines : Option (List SourcePlace)} {read : ℕ}

/-- The own source up to where a slice starts a place. -/
lemma ReadState.Good.ownBefore (h : s.Good lines read) (hlines : OrderedLines lines) {start : ℕ}
    (hstart : s.source ≤ start) :
    Extends s.places (ownBefore s start).places start ∧
      (∀ stop, start < stop → ∀ size, ({ ownBefore s start with
        places := (ownBefore s start).places ++ [⟨start, stop, size⟩], source := stop } :
          ReadState).Owns lines) := by
  have hends : ∀ p ∈ s.places, p.stop ≤ start := fun p hp => (h.ends p hp).trans hstart
  cases lines with
  | none =>
    obtain ⟨hnone, hcover⟩ := h.owns
    rw [Source.ownBefore, hnone]
    by_cases hempty : s.places = []
    · simp only [hempty, List.isEmpty_nil, if_true]
      refine ⟨.refl (hempty ▸ h.placed) (by simp), ?_⟩
      intro stop hlt size
      refine ⟨hnone, ?_⟩
      intro p hp x hx hx'
      cases Option.some.inj hp
      exact lies_singleton.mpr ⟨hx, hx'⟩
    · have hisempty : s.places.isEmpty = false := by simpa using hempty
      simp only [hisempty, Bool.false_eq_true, if_false]
      obtain ⟨hown, hlies⟩ := @addOwn_extends s.places h.placed s.source start h.ends
      rw [max_eq_right hstart] at hown
      refine ⟨hown, ?_⟩
      intro stop hlt size
      refine ⟨rfl, ?_⟩
      intro p hp x hx hx'
      have hhead := hown.head_eq hempty
      have hp' : (addOwn s.places s.source start).head? = some p := by
        have hp := Option.mem_def.mp hp
        rwa [List.head?_append_of_ne_nil _ (addOwn_ne_nil hempty)] at hp
      rw [hp', Option.map_some] at hhead
      obtain ⟨q, hq, hqp⟩ := Option.map_eq_some_iff.mp hhead.symm
      rcases Nat.lt_or_ge x s.source with hbefore | hafter
      · exact lies_append.mpr (.inl (hown.lies x (hcover q hq x (by omega) hbefore)))
      · rcases Nat.lt_or_ge x start with hin | hpast
        · exact lies_append.mpr (.inl (hlies x hafter hin))
        · exact lies_append.mpr (.inr (lies_singleton.mpr ⟨hpast, hx'⟩))
  | some own =>
    obtain ⟨done, left, hleft, hall, hdone, hcover⟩ := h.owns
    have hown := hlines own rfl
    have hordered := hown.ordered
    rw [hall, List.pairwise_append] at hordered
    have hleft' : OwnLines left :=
      ⟨hordered.2.1, fun l hl => hown.start_le l (by rw [hall]; exact List.mem_append_right _ hl)⟩
    obtain ⟨done', hsplit, hdone', hhead, hextends, hne, hafter, hflush⟩ :=
      @ownLines_extends s.source start hstart left s.places h.placed hends hleft'
        (fun l _ p hp => (h.ends p hp).trans (le_max_left _ _))
    -- what lies in the lines up to the slice is in the places
    rw [Source.ownBefore, hleft]
    cases hrest : (ownLines s.places s.source start left).2 with
    | nil =>
      simp only [hrest]
      refine ⟨hextends, ?_⟩
      intro stop hlt size
      refine ⟨done ++ done', [], rfl, ?_, ?_, ?_⟩
      · rw [hall, hsplit, hrest]
        simp
      · intro l hl
        show l.stop ≤ stop
        rcases List.mem_append.mp hl with hl | hl
        · have hle := hdone l hl
          omega
        · have hle := hdone' l hl
          omega
      · intro x hx hlies
        have hx : x < stop := hx
        rcases Nat.lt_or_ge x s.source with hbefore | hpast
        · exact lies_append.mpr (.inl (hextends.lies x (hcover x hbefore hlies)))
        · rcases Nat.lt_or_ge x start with hin | hpast'
          · rw [hall, hsplit, hrest, List.append_nil] at hlies
            rcases lies_append.mp hlies with ⟨l, hl, hx''⟩ | hlies
            · have hle := hdone l hl
              omega
            · exact lies_append.mpr (.inl (hflush x hpast hlies))
          · exact lies_append.mpr (.inr (lies_singleton.mpr ⟨hpast', hx⟩))
    | cons line rest =>
      simp only [hrest]
      rw [hrest] at hhead hafter hsplit
      have hlate : start < line.stop := hhead line rfl
      have hrestle : ∀ l ∈ rest, line.stop ≤ l.start := by
        have hordered' := hleft'.ordered
        rw [hsplit, List.pairwise_append, List.pairwise_cons] at hordered'
        exact hordered'.2.1.1
      obtain ⟨hpart, hpartlies⟩ := @addOwn_extends _ hextends.placed (max s.source line.start) start
        (hafter line List.mem_cons_self)
      have hfinal : Extends s.places (if line.start ≤ start then
            addOwn (ownLines s.places s.source start left).1 (max s.source line.start) start
          else (ownLines s.places s.source start left).1) start ∧
          ∀ x, s.source ≤ x → x < start → InPlaces own x → InPlaces (if line.start ≤ start then
            addOwn (ownLines s.places s.source start left).1 (max s.source line.start) start
          else (ownLines s.places s.source start left).1) x := by
        have hlast : ∀ x, s.source ≤ x → x < start → InPlaces own x →
            InPlaces (ownLines s.places s.source start left).1 x ∨ line.start ≤ x := by
          intro x hpast hin hlies
          rw [hall, hsplit] at hlies
          rcases lies_append.mp hlies with ⟨l, hl, hx''⟩ | hlies
          · have hle := hdone l hl
            omega
          · rcases lies_append.mp hlies with hlies | hlies
            · exact .inl (hflush x hpast hlies)
            · rcases lies_cons.mp hlies with hin' | ⟨l, hl, hx''⟩
              · exact .inr hin'.1
              · have hle := hrestle l hl
                omega
        by_cases hbegun : line.start ≤ start
        · rw [if_pos hbegun]
          have hmax : max (max s.source line.start) start = start := by omega
          rw [hmax] at hpart
          refine ⟨hextends.trans hpart hne, ?_⟩
          intro x hpast hin hlies
          rcases hlast x hpast hin hlies with hdone | hbegins
          · exact hpart.lies x hdone
          · exact hpartlies x (by omega) hin
        · rw [if_neg hbegun]
          refine ⟨hextends, ?_⟩
          intro x hpast hin hlies
          rcases hlast x hpast hin hlies with hdone | hbegins
          · exact hdone
          · omega
      refine ⟨hfinal.1, ?_⟩
      intro stop hlt size
      refine ⟨done ++ done', line :: rest, rfl, by rw [hall, hsplit, List.append_assoc], ?_, ?_⟩
      · intro l hl
        show l.stop ≤ stop
        rcases List.mem_append.mp hl with hl | hl
        · have hle := hdone l hl
          omega
        · have hle := hdone' l hl
          omega
      · intro x hx hlies
        have hx : x < stop := hx
        rcases Nat.lt_or_ge x s.source with hbefore | hpast
        · exact lies_append.mpr (.inl (hfinal.1.lies x (hcover x hbefore hlies)))
        · rcases Nat.lt_or_ge x start with hin | hpast'
          · exact lies_append.mpr (.inl (hfinal.2 x hpast hin hlies))
          · exact lies_append.mpr (.inr (lies_singleton.mpr ⟨hpast', hx⟩))

/-- What a slice leaves: the bytes read before in their places, its own in the source it was read
from, and the last place no later than the slice. -/
structure ReadState.Put (s s' : ReadState) (lines : Option (List SourcePlace)) (read start stop : ℕ)
    (size : ℕ) : Prop where
  good : s'.Good lines (read + size)
  before : ∀ k a b, Within s.places k a b → Within s'.places k a b
  own : ∀ k a b, read ≤ k → k < read + size → start ≤ a → b ≤ stop → Within s'.places k a b
  last_le : ∀ p ∈ s'.places.getLast?, p.start ≤ start
  offset_eq : s'.offset = s.offset

/-- A slice that reads on in the place before. -/
lemma ReadState.Good.joins (h : s.Good lines read) {front : List SourcePlace}
    {previous : SourcePlace} (hsplit : s.places = front ++ [previous]) {start stop size : ℕ}
    (hsize : 0 < size) (hstart : previous.start ≤ start)  :
    s.Put { s with
      places := front ++
        [{ previous with stop := max stop previous.stop, length := previous.length + size }]
      source := max stop previous.stop } lines read start stop size := by
  have hplaced := h.placed
  have hlength := h.length_eq
  have hends := h.ends
  rw [hsplit] at hplaced hlength hends
  obtain ⟨hfront, hbefore⟩ := hplaced.front
  obtain ⟨hpos, hsource⟩ := h.last_reads previous (by simp [hsplit])
  have hreads : previous.start < previous.stop := hplaced.reads previous (by simp) hpos
  rw [contentLength_append, contentLength_cons, contentLength_nil, Nat.add_zero] at hlength
  have hlies : ∀ x, InPlaces s.places x → InPlaces (front ++ [{ previous with
      stop := max stop previous.stop, length := previous.length + size }]) x := by
    intro x hx
    rw [hsplit] at hx
    rcases lies_append.mp hx with hx | hx
    · exact lies_append.mpr (.inl hx)
    · obtain ⟨hx, hx'⟩ := lies_singleton.mp hx
      exact lies_append.mpr (.inr (lies_singleton.mpr ⟨hx, hx'.trans_le (le_max_right _ _)⟩))
  have hnew : ∀ x, previous.stop ≤ x → x < max stop previous.stop → InPlaces (front ++ [{ previous with
      stop := max stop previous.stop, length := previous.length + size }]) x := by
    intro x hx hx'
    exact lies_append.mpr (.inr (lies_singleton.mpr ⟨by omega, hx'⟩))
  constructor
  · constructor
    · apply @Placed.concat _ hfront
        ⟨previous.start, max stop previous.stop, previous.length + size⟩ hbefore
      · exact hreads.le.trans (le_max_right _ _)
      · intro _
        exact hreads.trans_le (le_max_right _ _)
    · simp only [contentLength_append, contentLength_cons, contentLength_nil]
      omega
    · intro p hp
      have hp := Option.mem_def.mp hp
      rw [List.getLast?_concat] at hp
      cases Option.some.inj hp
      exact ⟨by show 0 < previous.length + size; omega, rfl⟩
    · intro p hp
      rcases List.mem_append.mp hp with hp | hp
      · exact (hbefore p hp).trans (hreads.le.trans (le_max_right _ _))
      · rw [List.mem_singleton.mp hp]
    · intro hnil
      simp at hnil
    · cases lines with
      | none =>
        obtain ⟨hnone, hcover⟩ := h.owns
        refine ⟨hnone, ?_⟩
        intro p hp x hx hx'
        rcases Nat.lt_or_ge x s.source with hbefore' | hpast
        · have hhead : ∃ q ∈ s.places.head?, q.start = p.start := by
            rw [hsplit]
            cases front with
            | nil =>
              cases Option.some.inj hp
              exact ⟨previous, rfl, rfl⟩
            | cons q front =>
              cases Option.some.inj hp
              exact ⟨p, rfl, rfl⟩
          obtain ⟨q, hq, hqp⟩ := hhead
          exact hlies x (hcover q hq x (by omega) hbefore')
        · exact hnew x (by omega) hx'
      | some own =>
        obtain ⟨done, left, hleft, hall, hdone, hcover⟩ := h.owns
        refine ⟨done, left, hleft, hall, ?_, ?_⟩
        · intro line hline
          have hle := hdone line hline
          show line.stop ≤ max stop previous.stop
          omega
        · intro x hx hx'
          rcases Nat.lt_or_ge x s.source with hbefore' | hpast
          · exact hlies x (hcover x hbefore' hx')
          · exact hnew x (by omega) hx
  · rintro k a b ⟨place, hplace, ha, hb⟩
    rw [hsplit, placeOf_append] at hplace
    show Within (front ++ _) k a b
    rw [Within, placeOf_append]
    split at hplace
    next hlt =>
      rw [if_pos hlt]
      exact ⟨place, hplace, ha, hb⟩
    next hge =>
      rw [if_neg hge]
      have hlt := placeOf_lt hplace
      rw [contentLength_cons, contentLength_nil] at hlt
      rw [placeOf, if_pos (by omega)] at hplace
      cases Option.some.inj hplace
      exact ⟨⟨previous.start, max stop previous.stop, previous.length + size⟩,
        by rw [placeOf, if_pos (by show _ < previous.length + size; omega)], ha,
        hb.trans (le_max_right _ _)⟩
  · intro k a b hk hk' ha hb
    show Within (front ++ _) k a b
    rw [Within, placeOf_append, if_neg (by omega)]
    exact ⟨⟨previous.start, max stop previous.stop, previous.length + size⟩,
      by rw [placeOf, if_pos (by show _ < previous.length + size; omega)], by
      show previous.start ≤ a
      omega, by
      show b ≤ max stop previous.stop
      omega⟩
  · intro p hp
    have hp := Option.mem_def.mp hp
    rw [List.getLast?_concat] at hp
    cases Option.some.inj hp
    exact hstart
  · rfl

/-- A slice that starts a place. -/
lemma ReadState.Good.starts (h : s.Good lines read) (hlines : OrderedLines lines)
    {start stop size : ℕ} (hlt : start < stop) (hsize : 0 < size) (hstart : s.source ≤ start) :
    s.Put { Source.ownBefore s start with
      places := (Source.ownBefore s start).places ++ [⟨start, stop, size⟩], source := stop }
        lines read start stop size := by
  obtain ⟨hextends, howns⟩ := h.ownBefore hlines hstart
  have hlength : contentLength (Source.ownBefore s start).places = read :=
    hextends.length_eq.trans h.length_eq
  constructor
  · constructor
    · exact hextends.placed.concat hextends.ends hlt.le fun _ => hlt
    · simp only [contentLength_append, contentLength_cons, contentLength_nil, hlength,
        Nat.add_zero]
    · intro p hp
      have hp := Option.mem_def.mp hp
      rw [List.getLast?_concat] at hp
      cases Option.some.inj hp
      exact ⟨hsize, rfl⟩
    · intro p hp
      rcases List.mem_append.mp hp with hp | hp
      · exact (hextends.ends p hp).trans hlt.le
      · rw [List.mem_singleton.mp hp]
    · intro hnil
      simp at hnil
    · exact howns stop hlt size
  · rintro k a b ⟨place, hplace, ha, hb⟩
    have hk := placeOf_lt hplace
    refine ⟨place, ?_, ha, hb⟩
    rw [placeOf_append, if_pos (by rw [hextends.length_eq]; exact hk), hextends.placeOf_eq, hplace]
  · intro k a b hk hk' ha hb
    refine ⟨⟨start, stop, size⟩, ?_, ha, hb⟩
    rw [placeOf_append, if_neg (by omega), placeOf, if_pos (by show _ < size; omega)]
  · intro p hp
    have hp := Option.mem_def.mp hp
    rw [List.getLast?_concat] at hp
    cases Option.some.inj hp
    exact le_rfl
  · rw [Source.ownBefore]
    cases s.lines with
    | none =>
      simp only
      split <;> rfl
    | some left =>
      simp only
      split <;> rfl

/-- A slice leaves the read good where it is no earlier in the source than the last place. -/
lemma ReadState.Good.putSlice (h : s.Good lines read) (hlines : OrderedLines lines)
    {start stop size : ℕ} (hlt : start < stop) (hsize : 0 < size)
    (hstart : ∀ p ∈ s.places.getLast?, p.start ≤ start) :
    s.Put (putSlice s start stop size) lines read start stop size := by
  rw [Source.putSlice]
  cases hlast : s.places.getLast? with
  | none =>
    have hnil := List.getLast?_eq_none_iff.mp hlast
    have hsource : s.source ≤ start := by
      rw [h.fresh hnil]
      exact Nat.zero_le _
    exact h.starts hlines hlt hsize hsource
  | some previous =>
    obtain ⟨hpos, hsource⟩ := h.last_reads previous hlast
    have hreads : Option.filter (fun previous : SourcePlace => decide (previous.length ≠ 0))
        (some previous) = some previous := by
      rw [Option.filter_some, if_pos (by simpa using (by omega : previous.length ≠ 0))]
    rw [hreads]
    by_cases hjoins : (previous.stop = start ∧ stop - start = size ∧
        previous.stop - previous.start = previous.length) ∨ start < previous.stop
    · rw [Option.filter_some, if_pos (by simpa using hjoins)]
      exact h.joins (split_last hlast) hsize (hstart previous hlast)
    · rw [Option.filter_some, if_neg (by simpa using hjoins)]
      have hle : s.source ≤ start := by
        rw [← hsource]
        apply Nat.le_of_not_lt
        intro hlt'
        exact hjoins (.inr hlt')
      exact h.starts hlines hlt hsize hle

/-! ### The slice of a mark -/

lemma Mark.place_mono {mark : Mark} (hstep : 0 ≤ mark.step) {x y : ℕ} (hxy : x ≤ y) :
    mark.place x false ≤ mark.place y false := by
  have hle : ((x : ℤ) - mark.offset) * mark.step ≤ ((y : ℤ) - mark.offset) * mark.step :=
    mul_le_mul_of_nonneg_right (by omega) hstep
  simp only [Mark.place, Bool.false_eq_true, if_false]
  omega

lemma Mark.place_nonneg {mark : Mark} (hstep : 0 ≤ mark.step) (hsource : 0 ≤ mark.source) {x : ℕ}
    (hx : mark.offset ≤ x) : 0 ≤ mark.place x false := by
  have hle : 0 ≤ ((x : ℤ) - mark.offset) * mark.step := mul_nonneg (by omega) hstep
  simp only [Mark.place, Bool.false_eq_true, if_false]
  omega

/-- Where the source of the byte at `x` ends, from where that of an earlier one begins. -/
lemma Mark.place_stop_le {mark : Mark} (hstep : 0 ≤ mark.step) {x y last : ℕ} (hlast : y + 1 ≤ last) :
    mark.place y true ≤
      mark.place x false + (((last : ℤ) - x - 1) * mark.step + mark.width) := by
  have hle : ((y : ℤ) - mark.offset) * mark.step ≤
      ((x : ℤ) - mark.offset) * mark.step + ((last : ℤ) - x - 1) * mark.step := by
    rw [← add_mul]
    exact mul_le_mul_of_nonneg_right (by omega) hstep
  simp only [Mark.place, Bool.false_eq_true, if_false, if_true]
  omega

/-- Where a read stands before a mark of the map: its content is read up to where the mark begins,
each byte in the source its own mark gives, and the last place is no later than the mark. -/
structure ReadState.Stands (s : ReadState) (map : ContentMap) (lines : Option (List SourcePlace))
    (i : ℕ) : Prop where
  good : s.Good lines (s.offset - map.origin)
  origin_le : map.origin ≤ s.offset
  next_lt : ∀ next, map.marks[i + 1]? = some next → s.offset < next.offset
  bytes : ∀ x, map.origin ≤ x → x < s.offset → ∀ j m, Covers map.marks x j m →
    Within s.places (x - map.origin) (m.place x false).toNat (m.place x true).toNat
  last_le : ∀ mark, map.marks[i]? = some mark → mark.offset ≤ s.offset ∧
    (∀ x, s.offset ≤ x → (∀ next, map.marks[i + 1]? = some next → x < next.offset) →
      Covers map.marks x i mark) ∧
    ∀ p ∈ s.places.getLast?, (p.start : ℤ) ≤ mark.place s.offset false

variable {map : ContentMap}

/-- A slice of a mark leaves the read good, each byte of it in its source. -/
lemma ReadState.Stands.slice (hmap : map.Reads) (hlines : OrderedLines lines) {i : ℕ}
    (h : s.Stands map lines i) {mark : Mark} (hmark : map.marks[i]? = some mark) {last : ℕ}
    (hlt : s.offset < last) (hlast : ∀ next, map.marks[i + 1]? = some next → last ≤ next.offset) :
    (readSlice s mark last).Good lines (last - map.origin) ∧
      (∀ x, map.origin ≤ x → x < last → ∀ j m, Covers map.marks x j m →
        Within (readSlice s mark last).places (x - map.origin) (m.place x false).toNat
          (m.place x true).toNat) ∧
      (∀ p ∈ (readSlice s mark last).places.getLast?, (p.start : ℤ) ≤ mark.place s.offset false) ∧
      (readSlice s mark last).offset = last := by
  have hmem : mark ∈ map.marks := List.mem_of_getElem? hmark
  have hstep := hmap.step_nonneg mark hmem
  have hwidth := hmap.width_pos mark hmem
  obtain ⟨hoffset, hcovers, hbefore⟩ := h.last_le mark hmark
  have hnonneg := Mark.place_nonneg hstep (hmap.source_nonneg mark hmem) hoffset
  have hgap : 0 < ((last : ℤ) - s.offset - 1) * mark.step + mark.width := by
    have hle : 0 ≤ ((last : ℤ) - s.offset - 1) * mark.step := mul_nonneg (by omega) hstep
    omega
  have horigin := h.origin_le
  have hput := @ReadState.Good.putSlice _ _ _ h.good hlines (mark.place s.offset false).toNat
    ((mark.place s.offset false).toNat +
      (((last : ℤ) - s.offset - 1) * mark.step + mark.width).toNat)
    (last - s.offset) (by omega) (by omega) (by
      intro p hp
      have hle := hbefore p hp
      omega)
  have hgood := hput.good
  rw [show s.offset - map.origin + (last - s.offset) = last - map.origin by omega] at hgood
  refine ⟨⟨hgood.placed, hgood.length_eq, hgood.last_reads, hgood.ends, hgood.fresh, hgood.owns⟩,
    ?_, ?_, rfl⟩
  · intro x hx hx' j m hm
    rcases Nat.lt_or_ge x s.offset with hread | hnew
    · exact hput.before _ _ _ (h.bytes x hx hread j m hm)
    · have hcover := hcovers x hnew fun next hnext => hx'.trans_le (hlast next hnext)
      have hj : j = i := hm.unique hcover
      subst hj
      cases Option.some.inj (hm.found.symm.trans hmark)
      apply hput.own _ _ _ (by omega) (by omega)
      · have hle := Mark.place_mono hstep hnew
        omega
      · have hle := @Mark.place_stop_le mark hstep s.offset x last (by omega)
        omega
  · intro p hp
    have hle := hput.last_le p hp
    omega

/-- The read stands before the next mark. -/
lemma ReadState.Stands.next (hmap : map.Reads) (hlines : OrderedLines lines) {i : ℕ}
    (h : s.Stands map lines i) {mark next : Mark} (hmark : map.marks[i]? = some mark)
    (hnext : map.marks[i + 1]? = some next) :
    (readSlice s mark next.offset).Stands map lines (i + 1) := by
  have hlt := h.next_lt next hnext
  obtain ⟨hgood, hbytes, hlast, hoffset⟩ := h.slice hmap hlines hmark hlt (fun other hother => by
    rw [Option.some.inj (hnext.symm.trans hother)])
  have hmem : mark ∈ map.marks := List.mem_of_getElem? hmark
  have hstep := hmap.step_nonneg mark hmem
  have horigin := h.origin_le
  constructor
  · rw [hoffset]
    exact hgood
  · rw [hoffset]
    omega
  · intro other hother
    rw [hoffset]
    obtain ⟨hi, rfl⟩ := List.getElem?_eq_some_iff.mp hnext
    obtain ⟨hi', rfl⟩ := List.getElem?_eq_some_iff.mp hother
    exact List.pairwise_iff_getElem.mp hmap.increasing _ _ hi hi' (Nat.lt_succ_self _)
  · intro x hx hx'
    rw [hoffset] at hx'
    exact hbytes x hx hx'
  · intro other hother
    cases Option.some.inj (hnext.symm.trans hother)
    rw [hoffset]
    refine ⟨le_rfl, ?_, ?_⟩
    · intro x hx hafter
      refine ⟨hnext, hx, ?_⟩
      intro j later hj hlater
      rcases Nat.lt_or_eq_of_le (show i + 1 + 1 ≤ j by omega) with hlt' | rfl
      · obtain ⟨hj', -⟩ := List.getElem?_eq_some_iff.mp hlater
        have hi'' : i + 1 + 1 < map.marks.length := by omega
        have hfollow := hafter map.marks[i + 1 + 1] (List.getElem?_eq_getElem hi'')
        have hle : map.marks[i + 1 + 1].offset ≤ later.offset :=
          Increasing.le hmap.increasing hlt'.le (List.getElem?_eq_getElem hi'') hlater
        omega
      · exact hafter later hlater
    · intro p hp
      have hle := hlast p hp
      obtain ⟨hi', hget⟩ := List.getElem?_eq_some_iff.mp hnext
      obtain ⟨hi, hget'⟩ := List.getElem?_eq_some_iff.mp hmark
      have hchain := List.isChain_iff_getElem.mp hmap.ordered i hi'
      rw [hget, hget'] at hchain
      have hmono := @Mark.place_mono mark hstep s.offset (next.offset - 1) (by omega)
      have hself : next.place next.offset false = next.source := by
        simp [Mark.place]
      rw [hself]
      omega

/-! ### The loop -/

lemma readMarks_go {mark next : Mark} {marks : List Mark} {stop : ℕ} (hlt : s.offset < stop)
    (hin : next.offset < stop) (keeps : Bool) (i : ℕ) (kept : Option KeptRead) :
    readMarks stop keeps (mark :: next :: marks) i s kept =
      readMarks stop keeps (next :: marks) (i + 1) (readSlice s mark next.offset) kept := by
  rw [readMarks, if_pos hlt]
  have hlast : sliceEnd (next :: marks) stop = next.offset := if_pos hin
  have hne : ¬ (keeps = true ∧ next.offset = stop) := by
    rintro ⟨-, heq⟩
    omega
  simp only [hlast, if_neg hne]

/-- The last mark of a read, before which the read that keeps does. -/
lemma readMarks_last {mark : Mark} {marks : List Mark} {stop : ℕ} (hlt : s.offset < stop)
    (hlast : ∀ next ∈ marks.head?, stop ≤ next.offset) (keeps : Bool) (i : ℕ)
    (kept : Option KeptRead) :
    readMarks stop keeps (mark :: marks) i s kept = (readSlice s mark stop,
      if keeps then some ⟨s.places, i, s.offset, s.source⟩ else kept) := by
  rw [readMarks, if_pos hlt]
  have hend : sliceEnd marks stop = stop := by
    cases marks with
    | nil => rfl
    | cons next marks =>
      have hle := hlast next rfl
      exact if_neg (by omega)
  simp only [hend, and_true]
  cases marks with
  | nil => rfl
  | cons next marks => rw [readMarks, if_neg (by show ¬ stop < stop; omega)]

/-- What the marks from `i` on are. -/
lemma drop_cases {marks : List Mark} {i : ℕ} {mark : Mark} (h : marks[i]? = some mark) (stop : ℕ) :
    (∃ next rest, marks.drop i = mark :: next :: rest ∧ marks[i + 1]? = some next ∧
        next.offset < stop) ∨
      ∃ rest, marks.drop i = mark :: rest ∧ (∀ next ∈ rest.head?, stop ≤ next.offset) ∧
        ∀ next, marks[i + 1]? = some next → stop ≤ next.offset := by
  obtain ⟨hi, rfl⟩ := List.getElem?_eq_some_iff.mp h
  rw [List.drop_eq_getElem_cons hi]
  by_cases hnext : ∃ next, marks[i + 1]? = some next ∧ next.offset < stop
  · obtain ⟨next, hnext, hlt⟩ := hnext
    left
    obtain ⟨hi', rfl⟩ := List.getElem?_eq_some_iff.mp hnext
    exact ⟨_, _, by rw [List.drop_eq_getElem_cons hi'], hnext, hlt⟩
  · right
    have hlate : ∀ next, marks[i + 1]? = some next → stop ≤ next.offset := by
      intro next hnext'
      apply Nat.le_of_not_lt
      intro hlt
      exact hnext ⟨next, hnext', hlt⟩
    refine ⟨_, rfl, ?_, hlate⟩
    intro next hhead
    rw [List.head?_drop] at hhead
    exact hlate next hhead

/-- The loop reads the content to its end. -/
lemma readMarks_spec (hmap : map.Reads) (hlines : OrderedLines lines) {stop : ℕ} (keeps : Bool) :
    ∀ (n i : ℕ) (s : ReadState) (kept : Option KeptRead), map.marks.length - i = n →
      i < map.marks.length → s.Stands map lines i → s.offset < stop →
      (readMarks stop keeps (map.marks.drop i) i s kept).1.Good lines (stop - map.origin) ∧
      ∀ x, map.origin ≤ x → x < stop → ∀ j m, Covers map.marks x j m →
        Within (readMarks stop keeps (map.marks.drop i) i s kept).1.places (x - map.origin)
          (m.place x false).toNat (m.place x true).toNat := by
  intro n
  induction n with
  | zero =>
    intro i s kept hn hi
    omega
  | succ n ih =>
    intro i s kept hn hi h hlt
    have hmark : map.marks[i]? = some map.marks[i] := List.getElem?_eq_getElem hi
    rcases drop_cases hmark stop with ⟨next, rest, hdrop, hnext, hin⟩ | ⟨rest, hdrop, hhead, hlast⟩
    · have hi' := (List.getElem?_eq_some_iff.mp hnext).1
      have hrest : next :: rest = map.marks.drop (i + 1) := by
        rw [← List.drop_drop, hdrop]
        rfl
      rw [hdrop, readMarks_go hlt hin, hrest]
      exact ih (i + 1) _ _ (by omega) hi' (h.next hmap hlines hmark hnext) hin
    · obtain ⟨hgood, hbytes, -, -⟩ := h.slice hmap hlines hmark hlt hlast
      rw [hdrop, readMarks_last hlt hhead]
      exact ⟨hgood, hbytes⟩

/-- A read before anything is read. -/
lemma stands_start (hmap : map.Reads) (hlines : OrderedLines lines) :
    (⟨[], lines, 0, map.origin⟩ : ReadState).Stands map lines (markAt map.marks map.origin) := by
  obtain ⟨first, hfirst, hle⟩ := hmap.covered
  have hcovers := markAt_covers hmap.increasing (Option.mem_def.mp hfirst) hle
  constructor
  · constructor
    · exact ⟨.nil, by simp, by simp⟩
    · simp
    · simp
    · simp
    · intro _
      rfl
    · cases lines with
      | none =>
        refine ⟨rfl, ?_⟩
        intro p hp
        cases hp
      | some own =>
        refine ⟨[], own, rfl, rfl, by simp, ?_⟩
        intro x hx
        cases hx
  · exact le_rfl
  · intro next hnext
    exact hcovers.last _ next (Nat.lt_succ_self _) hnext
  · intro x hx hx'
    exact absurd hx (Nat.not_le_of_lt hx')
  · intro mark hmark
    cases Option.some.inj (hcovers.found.symm.trans hmark)
    refine ⟨hcovers.le, ?_, by simp⟩
    intro x hx hafter
    refine ⟨hmark, hcovers.le.trans hx, ?_⟩
    intro j later hj hlater
    obtain ⟨hj', -⟩ := List.getElem?_eq_some_iff.mp hlater
    have hnext : markAt map.marks map.origin + 1 < map.marks.length := by omega
    have hlt := hafter _ (List.getElem?_eq_getElem hnext)
    have hle' : map.marks[markAt map.marks map.origin + 1].offset ≤ later.offset :=
      Increasing.le hmap.increasing hj (List.getElem?_eq_getElem hnext) hlater
    omega

/-! ### Reads that go on -/

/-- A read of some marks, of any length past them, stands so before the next. -/
inductive ReachesMark (map : ContentMap) (lines : Option (List SourcePlace)) : ℕ → ReadState → Prop
  | start : ReachesMark map lines (markAt map.marks map.origin) ⟨[], lines, 0, map.origin⟩
  | next {i : ℕ} {s : ReadState} {mark next : Mark} (h : ReachesMark map lines i s)
      (hmark : map.marks[i]? = some mark) (hnext : map.marks[i + 1]? = some next) :
      ReachesMark map lines (i + 1) (readSlice s mark next.offset)

lemma ReachesMark.stands (hmap : map.Reads) (hlines : OrderedLines lines) {i : ℕ}
    (h : ReachesMark map lines i s) : s.Stands map lines i := by
  induction h with
  | start => exact stands_start hmap hlines
  | next _ hmark hnext ih => exact ih.next hmap hlines hmark hnext

lemma ReachesMark.lt (hmap : map.Reads) {i : ℕ} (h : ReachesMark map lines i s) :
    i < map.marks.length := by
  cases h with
  | start =>
    obtain ⟨first, hfirst, hle⟩ := hmap.covered
    exact (List.getElem?_eq_some_iff.mp
      (markAt_covers hmap.increasing (Option.mem_def.mp hfirst) hle).found).1
  | next _ _ hnext => exact (List.getElem?_eq_some_iff.mp hnext).1

/-- The whole read goes on from where it stands as any read does. -/
lemma ReachesMark.goes (hmap : map.Reads) (hlines : OrderedLines lines) {i stop : ℕ}
    (h : ReachesMark map lines i s) (hlt : s.offset < stop) (keeps : Bool) (kept : Option KeptRead) :
    readMarks stop keeps (map.marks.drop (markAt map.marks map.origin))
        (markAt map.marks map.origin) ⟨[], lines, 0, map.origin⟩ kept =
      readMarks stop keeps (map.marks.drop i) i s kept := by
  induction h with
  | start => rfl
  | @next i s mark next h hmark hnext ih =>
    have hbefore := (h.stands hmap hlines).next_lt next hnext
    have hin : next.offset < stop := hlt
    rw [ih (hbefore.trans hin)]
    obtain ⟨hi, rfl⟩ := List.getElem?_eq_some_iff.mp hmark
    obtain ⟨hi', rfl⟩ := List.getElem?_eq_some_iff.mp hnext
    rw [List.drop_eq_getElem_cons hi, List.drop_eq_getElem_cons hi',
      readMarks_go (hbefore.trans hin) hin]

/-- What a read kept: where it stood before a mark of content it read. -/
def KeptFor (map : ContentMap) (stop : ℕ) (kept : KeptRead) : Prop :=
  ReachesMark map none kept.mark ⟨kept.places, none, kept.source, kept.offset⟩ ∧ kept.offset < stop

lemma orderedLines_none : OrderedLines none := by
  intro own hown
  cases hown

/-- A read with no lines that keeps where it stood keeps a state of the whole read. -/
lemma ReachesMark.keeps (hmap : map.Reads) {stop : ℕ} :
    ∀ (n i : ℕ) (s : ReadState) (kept : Option KeptRead), map.marks.length - i = n →
      ReachesMark map none i s → s.offset < stop →
      ∃ k, (readMarks stop true (map.marks.drop i) i s kept).2 = some k ∧ KeptFor map stop k := by
  intro n
  induction n with
  | zero =>
    intro i s kept hn h
    have hi := h.lt hmap
    omega
  | succ n ih =>
    intro i s kept hn h hlt
    have hi := h.lt hmap
    have hmark : map.marks[i]? = some map.marks[i] := List.getElem?_eq_getElem hi
    rcases drop_cases hmark stop with ⟨next, rest, hdrop, hnext, hin⟩ | ⟨rest, hdrop, hhead, -⟩
    · have hrest : next :: rest = map.marks.drop (i + 1) := by
        rw [← List.drop_drop, hdrop]
        rfl
      rw [hdrop, readMarks_go hlt hin, hrest]
      exact ih (i + 1) _ _ (by omega) (h.next hmark hnext) hin
    · rw [hdrop, readMarks_last hlt hhead]
      refine ⟨⟨s.places, i, s.offset, s.source⟩, rfl, ?_, hlt⟩
      have hnone : s.lines = none := (h.stands hmap orderedLines_none).good.owns.1
      have hs : (⟨s.places, none, s.source, s.offset⟩ : ReadState) = s := by rw [← hnone]
      show ReachesMark map none i ⟨s.places, none, s.source, s.offset⟩
      rw [hs]
      exact h

/-- What a read kept stands as the content grows. -/
lemma ReachesMark.grown {map' : ContentMap} (hmap : map.Reads) (hmap' : map'.Reads) {stop : ℕ}
    (hgrown : Grown map map' stop) {i : ℕ} (h : ReachesMark map none i s) (hlt : s.offset < stop) :
    ReachesMark map' none i s := by
  induction h with
  | start =>
    have hlt : map.origin < stop := hlt
    obtain ⟨first, hfirst, hle⟩ := hmap.covered
    have hcovers := markAt_covers hmap.increasing (Option.mem_def.mp hfirst) hle
    obtain ⟨first', hfirst', hle'⟩ := hmap'.covered
    have hcovers' := markAt_covers hmap'.increasing (Option.mem_def.mp hfirst') hle'
    have hsame : Covers map'.marks map.origin (markAt map.marks map.origin)
        (map.marks.getD (markAt map.marks map.origin) default) := by
      refine ⟨(hgrown.same _ _ (hcovers.le.trans_lt hlt)).mp hcovers.found, hcovers.le, ?_⟩
      intro j later hj hlater
      rcases Nat.lt_or_ge later.offset stop with hin | hpast
      · exact hcovers.last j later hj ((hgrown.same _ _ hin).mpr hlater)
      · omega
    rw [hgrown.origin_eq] at hcovers'
    rw [hsame.unique hcovers', ← hgrown.origin_eq]
    exact .start
  | @next i s mark next h hmark hnext ih =>
    have hstands := h.stands hmap orderedLines_none
    have hbefore := hstands.next_lt next hnext
    have hin : next.offset < stop := hlt
    have hoffset := (hstands.last_le mark hmark).1
    exact (ih (hbefore.trans hin)).next ((hgrown.same _ _ (by omega)).mp hmark)
      ((hgrown.same _ _ hin).mp hnext)

lemma readMarks_fst (stop : ℕ) (keeps keeps' : Bool) : ∀ (marks : List Mark) (i : ℕ) (s : ReadState)
    (kept kept' : Option KeptRead), (readMarks stop keeps marks i s kept).1 =
      (readMarks stop keeps' marks i s kept').1 := by
  intro marks
  induction marks with
  | nil => intros; rfl
  | cons mark marks ih =>
    intro i s kept kept'
    rw [readMarks, readMarks]
    split
    · exact ih ..
    · rfl

lemma readMarks_snd (stop : ℕ) : ∀ (marks : List Mark) (i : ℕ) (s : ReadState)
    (kept : Option KeptRead), (readMarks stop false marks i s kept).2 = kept := by
  intro marks
  induction marks with
  | nil => intros; rfl
  | cons mark marks ih =>
    intro i s kept
    rw [readMarks]
    split
    · simp only [Bool.false_eq_true, false_and, if_false]
      exact ih ..
    · rfl

lemma KeptFor.mono {stop stop' : ℕ} {k : KeptRead} (h : KeptFor map stop k) (hle : stop ≤ stop') :
    KeptFor map stop' k := ⟨h.1, h.2.trans_le hle⟩

lemma KeptFor.grown {map' : ContentMap} (hmap : map.Reads) (hmap' : map'.Reads) {stop stop' : ℕ}
    (hgrown : Grown map map' stop') {k : KeptRead} (h : KeptFor map stop k) (hle : stop ≤ stop') :
    KeptFor map' stop k :=
  ⟨h.1.grown hmap hmap' hgrown (h.2.trans_le hle), h.2⟩

/-- A whole read. -/
lemma readContent_none (hmap : map.Reads) {length : ℕ} (hpos : 0 < length) (settles : Bool) :
    readContent map lines length settles none =
      (some (readMarks (map.origin + length) (settles && lines.isNone)
          (map.marks.drop (markAt map.marks map.origin)) (markAt map.marks map.origin)
          ⟨[], lines, 0, map.origin⟩ none).1.finish,
        (readMarks (map.origin + length) (settles && lines.isNone)
          (map.marks.drop (markAt map.marks map.origin)) (markAt map.marks map.origin)
          ⟨[], lines, 0, map.origin⟩ none).2) := by
  have hne : ¬ (length = 0 ∨ map.marks = []) := by
    rintro (hzero | hnil)
    · omega
    · exact hmap.toOk.marks_ne_nil hnil
  rw [readContent, if_neg hne]
  simp only [ite_self, Option.filter_none, startRead]

/-- A read that goes on from what one of the content before kept reads what the whole read does. -/
lemma readContent_kept (hmap : map.Reads) {length stop : ℕ} (hpos : 0 < length)
    {kept : Option KeptRead} (hkept : ∀ k, kept = some k → KeptFor map stop k)
    (hstop : stop ≤ map.origin + length) :
    (readContent map lines length true kept).1 = (readContent map lines length false none).1 ∧
      ∀ k, (readContent map lines length true kept).2 = some k →
        KeptFor map (map.origin + length) k := by
  have hne : ¬ (length = 0 ∨ map.marks = []) := by
    rintro (hzero | hnil)
    · omega
    · exact hmap.toOk.marks_ne_nil hnil
  rw [readContent_none hmap hpos, readContent, if_neg hne]
  cases lines with
  | some own =>
    -- with lines of its own nothing is kept, and nothing gone on from
    simp only [Option.isNone_some, Bool.and_false, Bool.false_eq_true, if_false, Option.filter_none,
      startRead]
    constructor
    · rw [readMarks_fst _ _ false _ _ _ kept none]
    · intro k hk
      rw [readMarks_snd] at hk
      exact (hkept k hk).mono hstop
  | none =>
    simp only [Option.isNone_none, Bool.and_true, if_true, Bool.and_self]
    -- wherever it starts, the read stands where a read of the marks before does
    have hstart : ∃ i s, startRead map none (kept.filter (·.stands map)) = (i, s) ∧
        ReachesMark map none i s ∧ s.offset < map.origin + length := by
      cases hfilter : kept.filter (·.stands map) with
      | none => exact ⟨_, _, rfl, .start, by show map.origin < _; omega⟩
      | some k =>
        have hk := Option.filter_eq_some_iff.mp hfilter
        have hfor := hkept k hk.1
        exact ⟨_, _, rfl, hfor.1, hfor.2.trans_le hstop⟩
    obtain ⟨i, s, heq, hreaches, hlt⟩ := hstart
    rw [heq]
    constructor
    · rw [hreaches.goes hmap orderedLines_none hlt false none]
      rw [readMarks_fst _ _ false _ _ _ kept none]
    · intro k hk
      obtain ⟨k', hk', hfor⟩ := ReachesMark.keeps hmap _ i s kept rfl hreaches hlt
      cases Option.some.inj (hk.symm.trans hk')
      exact hfor

/-- Each of the reads of a paragraph as its content grows reads what the whole read does. -/
theorem readAll_eq {reads : List ContentRead} {kept : Option KeptRead} {stop : ℕ}
    (hreads : ∀ r ∈ reads, r.map.Reads) (hgrowing : Growing reads)
    (hkept : ∀ k, kept = some k → ∀ r ∈ reads.head?, KeptFor r.map stop k ∧ stop ≤ r.stop) :
    readAll kept reads = reads.map fun r => (readContent r.map r.lines r.length false none).1 := by
  induction reads generalizing kept stop with
  | nil => rfl
  | cons r reads ih =>
    have hmap := hreads r List.mem_cons_self
    rw [readAll, List.map_cons]
    have hrest : ∀ next ∈ reads.head?, r.length ≤ next.length ∧ Grown r.map next.map r.stop := by
      intro next hnext
      cases reads with
      | nil => cases hnext
      | cons other reads =>
        cases Option.some.inj hnext
        exact (List.isChain_cons_cons.mp hgrowing).1
    have hgrowing' : Growing reads := by
      cases reads with
      | nil => exact .nil
      | cons other reads => exact (List.isChain_cons_cons.mp hgrowing).2
    have hreads' : ∀ next ∈ reads, next.map.Reads := fun next hnext =>
      hreads next (List.mem_cons_of_mem _ hnext)
    -- what this read keeps stands for the next
    have hgo : ∀ kept' : Option KeptRead, (∀ k, kept' = some k → KeptFor r.map r.stop k) →
        readAll kept' reads =
          reads.map fun r => (readContent r.map r.lines r.length false none).1 := by
      intro kept' hkept'
      apply @ih kept' r.stop hreads' hgrowing'
      intro k hk next hnext
      obtain ⟨hle, hgrown⟩ := hrest next hnext
      have hnextmap := hreads' next (List.mem_of_mem_head? hnext)
      refine ⟨(hkept' k hk).grown hmap hnextmap hgrown le_rfl, ?_⟩
      show r.map.origin + r.length ≤ next.map.origin + next.length
      rw [hgrown.origin_eq]
      omega
    rcases Nat.eq_zero_or_pos r.length with hzero | hpos
    · have hempty : ∀ settles kept, readContent r.map r.lines r.length settles kept =
          (none, kept) := by
        intro settles kept
        rw [readContent, if_pos (.inl hzero)]
      rw [hempty, hempty]
      congr 1
      apply hgo
      intro k hk
      obtain ⟨hfor, hle⟩ := hkept k hk r rfl
      exact hfor.mono hle
    · have hread : ∀ k, kept = some k → KeptFor r.map (min stop r.stop) k := by
        intro k hk
        obtain ⟨hfor, hle⟩ := hkept k hk r rfl
        rwa [min_eq_left hle]
      obtain ⟨hsame, hkeeps⟩ := @readContent_kept r.lines r.map hmap r.length (min stop r.stop) hpos
        kept hread (min_le_right _ _)
      rw [hsame]
      congr 1
      exact hgo _ hkeeps

/-! ### The places of a content -/

/-- The lines left at the end are read as those before a slice past them all. -/
lemma foldl_ownLines {source bound : ℕ} : ∀ {left : List SourcePlace} {places : List SourcePlace},
    (∀ line ∈ left, line.stop ≤ bound) →
    left.foldl (fun places line => addOwn places (max source line.start) line.stop) places =
      (ownLines places source bound left).1 := by
  intro left
  induction left with
  | nil => intro places _; rfl
  | cons line left ih =>
    intro places hbound
    rw [List.foldl_cons, ownLines, if_pos (hbound line List.mem_cons_self)]
    exact ih fun l hl => hbound l (List.mem_cons_of_mem _ hl)

lemma exists_bound (source : ℕ) (lines : List SourcePlace) :
    ∃ bound, source ≤ bound ∧ ∀ line ∈ lines, line.stop ≤ bound := by
  induction lines with
  | nil => exact ⟨source, le_rfl, by simp⟩
  | cons line lines ih =>
    obtain ⟨bound, hsource, hlines⟩ := ih
    refine ⟨max bound line.stop, hsource.trans (le_max_left _ _), ?_⟩
    intro l hl
    rcases List.mem_cons.mp hl with rfl | hl
    · exact le_max_right _ _
    · exact (hlines l hl).trans (le_max_left _ _)

/-- At its end a read leaves no own source out. -/
lemma ReadState.Good.finish (h : s.Good lines read) (hlines : OrderedLines lines) :
    ∃ bound, Extends s.places s.finish bound ∧ OwnLies s.finish lines := by
  cases lines with
  | none =>
    obtain ⟨hnone, hcover⟩ := h.owns
    have hfinish : s.finish = s.places := by rw [ReadState.finish, hnone]
    rw [hfinish]
    refine ⟨s.source, .refl h.placed h.ends, ?_⟩
    intro first hfirst last hlast x hx hx'
    obtain ⟨-, hsource⟩ := h.last_reads last hlast
    exact hcover first hfirst x hx (by omega)
  | some own =>
    obtain ⟨done, left, hleft, hall, hdone, hcover⟩ := h.owns
    have hown := hlines own rfl
    have hordered := hown.ordered
    rw [hall, List.pairwise_append] at hordered
    have hleft' : OwnLines left :=
      ⟨hordered.2.1, fun l hl => hown.start_le l (by rw [hall]; exact List.mem_append_right _ hl)⟩
    obtain ⟨bound, hsource, hbound⟩ := exists_bound s.source left
    obtain ⟨done', hsplit, -, hhead, hextends, -, -, hflush⟩ :=
      @ownLines_extends s.source bound hsource left s.places h.placed
        (fun p hp => (h.ends p hp).trans hsource) hleft'
        (fun l _ p hp => (h.ends p hp).trans (le_max_left _ _))
    have hfinish : s.finish = (ownLines s.places s.source bound left).1 := by
      rw [ReadState.finish, hleft]
      exact foldl_ownLines hbound
    rw [hfinish]
    refine ⟨bound, hextends, ?_⟩
    -- no line is left past the bound
    have hnil : (ownLines s.places s.source bound left).2 = [] := by
      cases hrest : (ownLines s.places s.source bound left).2 with
      | nil => rfl
      | cons line rest =>
        rw [hrest] at hhead hsplit
        have hlt := hhead line rfl
        have hle := hbound line (by rw [hsplit]; simp)
        omega
    rw [hnil, List.append_nil] at hsplit
    intro x hx
    rcases Nat.lt_or_ge x s.source with hbefore | hpast
    · exact hextends.lies x (hcover x hbefore hx)
    · rw [hall] at hx
      rcases lies_append.mp hx with ⟨l, hl, hx'⟩ | hx
      · have hle := hdone l hl
        omega
      · rw [hsplit] at hx
        exact hflush x hpast hx

lemma Extends.within {bound k a b : ℕ} (h : Extends places places' bound)
    (hk : Within places k a b) : Within places' k a b := by
  obtain ⟨place, hplace, ha, hb⟩ := hk
  exact ⟨place, by rw [h.placeOf_eq, hplace], ha, hb⟩

/-- The places of a whole read. -/
lemma readContent_reads (hmap : map.Reads) (hlines : OrderedLines lines) {length : ℕ}
    (hpos : 0 < length) :
    ∃ places, (readContent map lines length false none).1 = some places ∧
      ReadsContent map lines length places := by
  have hstart := stands_start hmap hlines
  have hi := (@ReachesMark.start map lines).lt hmap
  obtain ⟨hgood, hbytes⟩ := @readMarks_spec lines map hmap hlines (map.origin + length) false _ _
    ⟨[], lines, 0, map.origin⟩ none rfl hi hstart (by show map.origin < _; omega)
  obtain ⟨bound, hextends, hown⟩ := hgood.finish hlines
  have hread := @readContent_none lines map hmap length hpos false
  rw [Bool.false_and] at hread
  refine ⟨_, congrArg Prod.fst hread, ?_⟩
  constructor
  · exact hextends.placed
  · rw [hextends.length_eq, hgood.length_eq]
    omega
  · intro k hk
    obtain ⟨first, hfirst, hle⟩ := hmap.covered
    have hcovers := @markAt_covers _ (k + map.origin) hmap.increasing first
      (Option.mem_def.mp hfirst) (by omega)
    have hmem := List.mem_of_getElem? hcovers.found
    have hstep := hmap.step_nonneg _ hmem
    have hwidth := hmap.width_pos _ hmem
    have hnonneg := Mark.place_nonneg hstep (hmap.source_nonneg _ hmem) hcovers.le
    have hwithin := hbytes (k + map.origin) (by omega) (by omega) _ _ hcovers
    rw [Nat.add_sub_cancel] at hwithin
    have hplace : ∀ stop, map.contentPlace k stop =
        some ((map.marks.getD (markAt map.marks (k + map.origin)) default).line,
          (map.marks.getD (markAt map.marks (k + map.origin)) default).place
            (k + map.origin) stop) := by
      intro stop
      rw [ContentMap.contentPlace, if_neg hmap.toOk.marks_ne_nil]
    refine ⟨_, _, _, _, hplace false, hplace true, hnonneg, ?_, hextends.within hwithin⟩
    simp only [Mark.place, Bool.false_eq_true, if_false, if_true]
    apply Int.add_lt_add_left
    omega
  · exact hown

/-- The places of a content are in order and complete, each byte in the place its mark gives; and the
reads of a paragraph's content as it grows, each going on from what the one before kept, read what
whole reads do. -/
theorem read_content_places :
    (∀ (map : ContentMap) (lines : Option (List SourcePlace)) (length : ℕ), map.Reads →
      OrderedLines lines → 0 < length →
      ∃ places, (readContent map lines length false none).1 = some places ∧
        ReadsContent map lines length places) ∧
    ∀ reads : List ContentRead, (∀ r ∈ reads, r.map.Reads) → Growing reads →
      readAll none reads = reads.map fun r => (readContent r.map r.lines r.length false none).1 := by
  constructor
  · intro map lines length hmap hlines hpos
    exact readContent_reads hmap hlines hpos
  · intro reads hreads hgrowing
    exact @readAll_eq reads none 0 hreads hgrowing (by simp)

/-- A line's content, a tab's columns and the content of the line after. -/
def sampleMap : ContentMap := ⟨[⟨0, 1, 2, 1, 1⟩, ⟨5, 1, 9, 1, 0⟩, ⟨9, 2, 12, 1, 1⟩], 0⟩

/-- The content before the second line. -/
def sampleFront : ContentMap := ⟨[⟨0, 1, 2, 1, 1⟩, ⟨5, 1, 9, 1, 0⟩], 0⟩

lemma sampleMap_reads : sampleMap.Reads where
  increasing := by decide
  covered := ⟨_, rfl, le_rfl⟩
  width_pos := by decide
  step_nonneg := by decide
  source_nonneg := by decide
  ordered := by decide

lemma sampleFront_reads : sampleFront.Reads where
  increasing := by decide
  covered := ⟨_, rfl, le_rfl⟩
  width_pos := by decide
  step_nonneg := by decide
  source_nonneg := by decide
  ordered := by decide

theorem read_content_places_sample :
    (∃ places, (readContent sampleMap (some [⟨0, 10, 0⟩, ⟨10, 20, 0⟩]) 12 false none).1 =
        some places ∧ ReadsContent sampleMap (some [⟨0, 10, 0⟩, ⟨10, 20, 0⟩]) 12 places) ∧
      readAll none [⟨sampleFront, none, 7⟩, ⟨sampleMap, none, 12⟩] =
        [(readContent sampleFront none 7 false none).1,
          (readContent sampleMap none 12 false none).1] := by
  constructor
  · apply read_content_places.1 _ _ _ sampleMap_reads
    · intro own hown
      cases hown
      exact ⟨by decide, by decide⟩
    · decide
  · apply read_content_places.2
    · intro r hr
      simp only [List.mem_cons, List.not_mem_nil, or_false] at hr
      rcases hr with rfl | rfl
      · exact sampleFront_reads
      · exact sampleMap_reads
    · apply List.IsChain.cons_cons _ (.singleton _)
      refine ⟨by decide, rfl, ?_⟩
      intro i mark hlt
      rcases i with _ | _ | _ | i
      · rfl
      · rfl
      · simp only [sampleFront, sampleMap]
        constructor
        · intro h
          cases h
        · intro h
          cases h
          exact absurd hlt (by decide)
      · rfl

end MarkdownCore.Source
