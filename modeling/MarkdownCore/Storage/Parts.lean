import MarkdownCore.Storage.ArrayRun

/-!
# Zippers whose front is an array

The front of a zipper is an array that moves ahead of its growth, its back a stack. Whatever is
done to one, in place or at its end, by a move of its focus or without storage, it holds what the
operations that had storage make of a zipper of lists (`Parts.contents_of_run`). An array with no
back is what an array's own operations are about.
-/

namespace MarkdownCore.Storage

/-- `MARKDOWN_CORE_ZIPPER`, the back's entries from the focus on. -/
structure Parts (α : Type*) where
  front : Array α
  back : List α
  size : ℕ

/-- Operations on an array, on a front, and on both parts. -/
inductive Op (α : Type*) where
  | push (value : α)
  | append (elements : List α)
  | reserve (total : ℕ)
  | write (index : ℕ) (value : α)
  | truncate (size : ℕ)
  | shrink
  | replace (first last : ℕ) (elements : List α)
  | frontInsert (index : ℕ) (entry : α)
  | frontErase (index n : ℕ)
  | move (place size : ℕ)

/-- An operation, and the storage to be had as it runs: for the array and for the back. -/
structure Call (α : Type*) where
  op : Op α
  storage : ℕ → Bool
  backRoom : Bool

variable {α : Type*}

/-- The elements `n` cells from `start` on hold, all written. -/
def readCells (cells : Cells α) (start n : ℕ) : Option (List α) :=
  if start + n ≤ cells.length then ((cells.drop start).take n).mapM id else none

namespace Parts

/-- Both parts zeroed. -/
def empty : Parts α := ⟨Array.empty, [], 0⟩

section

variable (P : Places α)

/-- `name##_front_from`. -/
def frontFrom (z : Parts α) (place : ℕ) : ℕ :=
  Bisect.bisect (fun k => (z.front.ahead.values[k]?.join).any fun a => P.start a < place)
    z.front.count 0 z.front.count

/-- `name##_back_from`. -/
def backFrom (z : Parts α) (place : ℕ) : ℕ :=
  Bisect.bisect (fun k => (z.back[k]?).any fun a => z.size - P.start a < place)
    z.back.length 0 z.back.length

variable [DecidableEq α] (width : Width)

/-- `name##_move`, the back's room had or not. -/
def move (z : Parts α) (storage : ℕ → Bool) (backRoom : Bool) (place size : ℕ) :
    Option (Bool × Parts α) :=
  if z.back ≠ [] ∧ z.size ≠ size then none
  else
    let first := z.frontFrom P place
    let taken := if z.back ≠ [] then z.backFrom P place else 0
    if backRoom = false then some (false, z)
    else
      (z.front.reserve storage width (z.front.count + taken)).bind fun reserved =>
        if reserved.1 = false then some (false, { z with front := reserved.2 })
        else
          let leaving := if first < z.front.count then
              readCells reserved.2.ahead.values first (z.front.count - first)
            else some []
          leaving.bind fun leaving =>
            let front := if first < z.front.count then reserved.2.truncate first else reserved.2
            let back := leaving.map (P.flip · size) ++ z.back
            (front.store front.count ((back.take taken).map (P.flip · size))
              (front.count + taken)).map fun front => (true, ⟨front, back.drop taken, size⟩)

/-- Whether an operation's caller may call it: what it names lies in the array, and the text a
move is in ends where the back's text ends. -/
def Fits (z : Parts α) : Op α → Prop
  | .push _ | .append _ | .reserve _ | .shrink => True
  | .write index _ => index < z.front.count
  | .truncate size => size ≤ z.front.count
  | .replace first last _ => first ≤ last ∧ last ≤ z.front.count
  | .frontInsert index _ => index ≤ z.front.count
  | .frontErase index n => index + n ≤ z.front.count
  | .move _ size => z.back = [] ∨ z.size = size

instance (z : Parts α) : DecidablePred z.Fits
  | .push _ | .append _ | .reserve _ | .shrink => inferInstanceAs (Decidable True)
  | .write index _ => inferInstanceAs (Decidable (index < _))
  | .truncate size => inferInstanceAs (Decidable (size ≤ _))
  | .replace first last _ => inferInstanceAs (Decidable (first ≤ last ∧ last ≤ _))
  | .frontInsert index _ => inferInstanceAs (Decidable (index ≤ _))
  | .frontErase index n => inferInstanceAs (Decidable (index + n ≤ _))
  | .move _ size => inferInstanceAs (Decidable (z.back = [] ∨ z.size = size))

/-- Something done to the front. -/
def onFront (z : Parts α) (done : Option (Bool × Array α)) : Option (Bool × Parts α) :=
  done.map fun done => (done.1, { z with front := done.2 })

/-- What an operation does: whether it had the storage, and what there is then. -/
def act (z : Parts α) (call : Call α) : Option (Bool × Parts α) :=
  match call.op with
  | .push value => z.onFront (z.front.push call.storage width value)
  | .append elements => z.onFront (z.front.append call.storage width elements)
  | .reserve total => z.onFront (z.front.reserve call.storage width total)
  | .write index value => z.onFront ((z.front.write index value).map (true, ·))
  | .truncate size => z.onFront (some (true, z.front.truncate size))
  | .shrink => z.onFront (some (true, z.front.shrink call.storage width))
  | .replace first last elements =>
    z.onFront (z.front.replace call.storage width first last elements)
  | .frontInsert index entry => z.onFront (z.front.frontInsert call.storage width index entry)
  | .frontErase index n => z.onFront ((z.front.frontErase index n).map (true, ·))
  | .move place size => z.move P width call.storage call.backRoom place size

/-- A call that its caller may make; another is not made. -/
def step (z : Parts α) (call : Call α) : Option (Bool × Parts α) :=
  if z.Fits call.op then z.act P width call else some (false, z)

/-- Calls one after another, with the operations that were carried out. -/
def run : List (Call α) → Parts α → Option (List (Op α) × Parts α)
  | [], z => some ([], z)
  | call :: calls, z =>
    (z.step P width call).bind fun done =>
      (run calls done.2).map fun rest =>
        (if done.1 then call.op :: rest.1 else rest.1, rest.2)

end

end Parts

/-- An operation on a zipper of lists. -/
def Op.onLists (P : Places α) : Op α → Zipper α → Zipper α
  | .push value, z => { z with front := z.front ++ [value] }
  | .append elements, z => { z with front := z.front ++ elements }
  | .reserve _, z => z
  | .write index value, z => { z with front := z.front.set index value }
  | .truncate size, z => { z with front := z.front.take size }
  | .shrink, z => z
  | .replace first last elements, z =>
    { z with front := z.front.take first ++ elements ++ z.front.drop last }
  | .frontInsert index entry, z =>
    { z with front := z.front.take index ++ [entry] ++ z.front.drop index }
  | .frontErase index n, z => { z with front := z.front.take index ++ z.front.drop (index + n) }
  | .move place size, z => z.move P place size

namespace Parts

/-- Parts that hold a zipper of lists. -/
structure Holds (width : Width) (z : Parts α) (l : Zipper α) : Prop where
  front : z.front.Good width l.front
  back : z.back = l.back
  size : z.size = l.size

variable {width : Width} {z : Parts α} {l : Zipper α}

lemma mapM_map_some : ∀ elements : List α, (elements.map some).mapM id = some elements
  | [] => rfl
  | element :: elements => by
    rw [List.map_cons, List.mapM_cons, mapM_map_some elements]
    rfl

lemma readCells_held {cells : Cells α} {front : List α} (h : front.map some <+: cells)
    {start n : ℕ} (hle : start + n ≤ front.length) :
    readCells cells start n = some ((front.drop start).take n) := by
  have hcells := length_le_of_held h
  rw [readCells, if_pos (by omega), take_of_held (drop_of_held h start) (by simp; omega),
    mapM_map_some]

lemma getElem?_held {cells : Cells α} {front : List α} (h : front.map some <+: cells) {k : ℕ}
    (hk : k < front.length) : cells[k]?.join = front[k]? := by
  obtain ⟨rest, rfl⟩ := h
  rw [List.getElem?_append_left (by simpa using hk), List.getElem?_map]
  simp [hk]

section

variable {P : Places α}

lemma Holds.frontFrom_eq (h : z.Holds width l) (place : ℕ) :
    z.frontFrom P place = l.frontFrom P place := by
  rw [frontFrom, Zipper.frontFrom, h.front.count_eq]
  apply Bisect.bisect_congr
  intro k hk
  rw [getElem?_held h.front.ahead.held hk]

lemma Holds.backFrom_eq (h : z.Holds width l) (place : ℕ) :
    z.backFrom P place = l.backFrom P place := by
  rw [backFrom, Zipper.backFrom, h.back, h.size]

/-! ### Operations -/

/-- What an operation gives: parts that hold what it makes of the lists, or the parts as they
were. -/
inductive Done (width : Width) (z : Parts α) (l : Zipper α) : Option (Bool × Parts α) → Prop
  | had {done : Parts α} (holds : done.Holds width l) : Done width z l (some (true, done))
  | refused : Done width z l (some (false, z))

lemma Holds.onFront (h : z.Holds width l) {front : List α} {done : Option (Bool × Array α)}
    (hdone : Array.Done width z.front front done) :
    Done width z { l with front } (z.onFront done) := by
  cases hdone with
  | had good => exact Done.had ⟨good, h.back, h.size⟩
  | refused => exact Done.refused

variable [DecidableEq α]

/-- A move of the focus takes the entries between from one part to the other. -/
lemma Holds.move (h : z.Holds width l) (storage : ℕ → Bool) (backRoom : Bool) (place : ℕ)
    {size : ℕ} (hsize : z.back = [] ∨ z.size = size) :
    Done width z (l.move P place size) (z.move P width storage backRoom place size) := by
  have hassert : ¬ (z.back ≠ [] ∧ z.size ≠ size) := by
    rintro ⟨hback, hne⟩
    exact hsize.elim hback hne
  -- What comes to the front is what stands before the place in a text of this size.
  have htaken : (if z.back ≠ [] then z.backFrom P place else 0) =
      Zipper.backFrom P (l.resize size) place := by
    by_cases hback : z.back = []
    · rw [if_neg (not_not.mpr hback), Zipper.backFrom]
      simp only [Zipper.resize]
      rw [← h.back, hback]
      rfl
    · have hsame : l.resize size = l := by
        rw [Zipper.resize, ← hsize.resolve_left hback, h.size]
      rw [if_pos hback, h.backFrom_eq, hsame]
  rw [Parts.move, if_neg hassert]
  simp only [htaken, h.frontFrom_eq]
  have hfirst : l.frontFrom P place ≤ l.front.length :=
    (Bisect.bisect_bounds _ (Nat.zero_le _)).2
  have hmove : l.move P place size =
      ⟨l.front.take (l.frontFrom P place) ++
          (((l.front.drop (l.frontFrom P place)).map (P.flip · size) ++ l.back).take
            ((l.resize size).backFrom P place)).map (P.flip · size),
        ((l.front.drop (l.frontFrom P place)).map (P.flip · size) ++ l.back).drop
          ((l.resize size).backFrom P place), size⟩ := rfl
  have htakenle : (l.resize size).backFrom P place ≤ l.back.length :=
    (Bisect.bisect_bounds _ (Nat.zero_le _)).2
  generalize (l.resize size).backFrom P place = taken at hmove htakenle ⊢
  generalize l.frontFrom P place = first at hfirst hmove ⊢
  rw [hmove]
  by_cases hback : backRoom = false
  · rw [if_pos hback]
    exact Done.refused
  rw [if_neg hback]
  rcases h.front.reserve storage (z.front.count + taken) with ⟨reserved, heq, hgood, hroom⟩ | heq
  · rw [heq, Option.bind_some, if_neg (by simp)]
    -- The entries that leave the front, if any, are read from the cells they stood in.
    have hleave : (if first < z.front.count then
          readCells reserved.ahead.values first (z.front.count - first) else some []) =
        some (l.front.drop first) := by
      rw [h.front.count_eq]
      split
      next =>
        rw [readCells_held hgood.ahead.held (by omega), List.take_of_length_le (by simp)]
      next hge => rw [List.drop_of_length_le (not_lt.mp hge)]
    have hstays : Array.Good width
        (if first < z.front.count then reserved.truncate first else reserved)
        (l.front.take first) := by
      split
      next => exact hgood.truncate hfirst
      next hge =>
        rw [h.front.count_eq, not_lt] at hge
        rwa [List.take_of_length_le hge]
    have hstill : (if first < z.front.count then reserved.truncate first else reserved).ahead.room =
        reserved.ahead.room := by
      split <;> rfl
    rw [hleave, Option.bind_some]
    generalize (if first < z.front.count then reserved.truncate first else reserved) = front
      at hstays hstill ⊢
    rw [h.back]
    set back := (l.front.drop first).map (P.flip · size) ++ l.back with hbackeq
    have hcome : ((back.take taken).map (P.flip · size)).length = taken := by
      rw [List.length_map, List.length_take, hbackeq, List.length_append]
      omega
    have hcount := h.front.count_eq
    have hstore := hstays.storeLast ((back.take taken).map (P.flip · size))
      (by rw [hcome, hstill, List.length_take]; omega)
    obtain ⟨done, hdone, hgood'⟩ := hstore
    rw [hcome] at hdone
    rw [hstays.count_eq, hdone]
    exact Done.had ⟨hgood', rfl, rfl⟩
  · rw [heq]
    exact Done.refused

/-- The assertions hold whatever is done, and an operation without storage leaves the parts as
they were. -/
theorem Holds.act (h : z.Holds width l) (call : Call α) (hfits : z.Fits call.op) :
    Done width z (call.op.onLists P l) (z.act P width call) := by
  have hcount := h.front.count_eq
  obtain ⟨op, storage, backRoom⟩ := call
  cases op with
  | push value => exact h.onFront (h.front.push storage value)
  | append elements => exact h.onFront (h.front.append storage elements)
  | reserve total =>
    have hdone : Array.Done width z.front l.front (z.front.reserve storage width total) := by
      rcases h.front.reserve storage total with ⟨reserved, heq, hgood, -⟩ | heq
      · rw [heq]
        exact Array.Done.had hgood
      · rw [heq]
        exact Array.Done.refused
    exact h.onFront hdone
  | write index value =>
    have hindex : index < l.front.length := lt_of_lt_of_eq hfits hcount
    obtain ⟨done, hdone, hgood⟩ := h.front.write hindex value
    have hwritten : Array.Done width z.front (l.front.set index value)
        ((z.front.write index value).map (true, ·)) := by
      rw [hdone]
      exact Array.Done.had hgood
    exact h.onFront hwritten
  | truncate size => exact h.onFront (Array.Done.had (h.front.truncate (hcount ▸ hfits)))
  | shrink => exact h.onFront (Array.Done.had (h.front.shrink storage))
  | replace first last elements =>
    exact h.onFront (h.front.replace storage hfits.1 (hcount ▸ hfits.2) elements)
  | frontInsert index entry => exact h.onFront (h.front.frontInsert storage (hcount ▸ hfits) entry)
  | frontErase index n =>
    have hlast : index + n ≤ l.front.length := le_of_le_of_eq hfits hcount
    obtain ⟨done, hdone, hgood⟩ := h.front.frontErase hlast
    have herased : Array.Done width z.front (l.front.take index ++ l.front.drop (index + n))
        ((z.front.frontErase index n).map (true, ·)) := by
      rw [hdone]
      exact Array.Done.had hgood
    exact h.onFront herased
  | move place size => exact h.move storage backRoom place hfits

/-- A call that is made, or is not. -/
lemma Holds.step (h : z.Holds width l) (call : Call α) :
    Done width z (call.op.onLists P l) (z.step P width call) := by
  rw [Parts.step]
  split
  next hfits => exact h.act call hfits
  next => exact Done.refused

/-- Whatever is called, the parts hold what the operations carried out make of the lists. -/
theorem Holds.run (h : z.Holds width l) (calls : List (Call α)) :
    ∃ ops held, Parts.run P width calls z = some (ops, held) ∧
      held.Holds width (ops.foldl (fun l op => op.onLists P l) l) := by
  induction calls generalizing z l with
  | nil => exact ⟨[], z, rfl, h⟩
  | cons call calls ih =>
    have hstep := h.step (P := P) call
    rw [Parts.run]
    generalize z.step P width call = done at hstep ⊢
    cases hstep with
    | @had done holds =>
      obtain ⟨ops, held, hrun, hheld⟩ := ih holds
      refine ⟨call.op :: ops, held, ?_, hheld⟩
      rw [Option.bind_some, hrun]
      rfl
    | refused =>
      obtain ⟨ops, held, hrun, hheld⟩ := ih h
      refine ⟨ops, held, ?_, hheld⟩
      rw [Option.bind_some, hrun]
      rfl

end

end Parts

end MarkdownCore.Storage
