import MarkdownCore.Lsp.Json.WriteRun

/-!
# What storage refuses

A read that storage refuses answers so, and any other read answers as it would with all the
storage there is; and so does a write.
-/

namespace MarkdownCore.Json

/-! ### Reading -/

/-- An answer that storage refused, or the one there would be if it refused nothing. -/
def Follows {α : Type} (read full : Except Status α) : Prop :=
  read = .error .failed ∨ read = full

namespace Follows

lemma refl {α : Type} (read : Except Status α) : Follows read read := Or.inr rfl

lemma bind {α β : Type} {read full : Except Status α} {f g : α → Except Status β}
    (h : Follows read full) (hfg : ∀ x, Follows (f x) (g x)) :
    Follows (read >>= f) (full >>= g) := by
  rcases h with rfl | rfl
  · exact Or.inl rfl
  · cases read with
    | error status => exact Or.inr rfl
    | ok x => exact hfg x

end Follows

namespace Reader

variable (storage : ℕ → Bool)

/-- Where nothing is refused. -/
abbrev whole : ℕ → Bool := fun _ => true

lemma follows_push (r : Reader) (kind : Kind) :
    Follows (r.push storage kind) (r.push whole kind) := by
  unfold push
  split
  · exact Or.inr rfl
  · exact Or.inl rfl

lemma follows_put (r : Reader) (bytes : List UInt8) :
    Follows (r.put storage bytes) (r.put whole bytes) := by
  unfold put
  split
  · exact Or.inr rfl
  · split
    · exact Or.inr rfl
    · exact Or.inl rfl

lemma follows_readChars (fuel : ℕ) : ∀ r : Reader,
    Follows (readChars storage fuel r) (readChars whole fuel r) := by
  induction fuel with
  | zero => exact fun r => Follows.refl _
  | succ fuel ih =>
    intro r
    simp only [readChars]
    refine (follows_put storage r _).bind fun run => ?_
    split
    · exact Follows.refl _
    · split
      · exact Follows.refl _
      · split
        · exact Follows.refl _
        · split
          · exact Follows.refl _
          · exact (follows_put storage _ _).bind fun escaped => ih escaped

lemma follows_readString (r : Reader) :
    Follows (r.readString storage) (r.readString whole) :=
  (follows_push storage r .string).bind fun _ =>
    (follows_readChars storage _ _).bind fun _ => Follows.refl _

lemma follows_readNumber (r : Reader) :
    Follows (r.readNumber storage) (r.readNumber whole) := by
  unfold readNumber
  split
  · exact Follows.refl _
  · exact (follows_push storage r .number).bind fun _ =>
      (follows_put storage _ _).bind fun _ => Follows.refl _

lemma follows_readName (r : Reader) : Follows (r.readName storage) (r.readName whole) := by
  unfold readName
  split
  · exact Follows.refl _
  · exact (follows_readString storage _).bind fun name => Follows.refl _

section

variable {read full : Reader → Except Status Reader} (h : ∀ r, Follows (read r) (full r))

include h

lemma follows_readItem (kind : Kind) (r : Reader) :
    Follows (readItem storage read kind r) (readItem whole full kind r) := by
  unfold readItem
  dsimp only
  split
  · exact (follows_readName storage r).bind h
  · exact (Follows.refl _).bind h

lemma follows_readItems (kind : Kind) (close : UInt8) (fuel : ℕ) : ∀ r : Reader,
    Follows (readItems storage read kind close fuel r) (readItems whole full kind close fuel r) := by
  induction fuel with
  | zero => exact fun r => Follows.refl _
  | succ fuel ih =>
    intro r
    simp only [readItems]
    refine (follows_readItem storage h kind r).bind fun item => ?_
    split
    · exact Follows.refl _
    · split
      · exact Follows.refl _
      · split
        · exact Follows.refl _
        · exact ih _

lemma follows_readContainer (kind : Kind) (r : Reader) :
    Follows (readContainer storage read kind r) (readContainer whole full kind r) := by
  unfold readContainer
  generalize (if kind = .array then (93 : UInt8) else 125) = close
  refine (follows_push storage r kind).bind fun pushed => ?_
  dsimp only
  split
  · exact Follows.refl _
  · exact (follows_readItems storage h kind _ _ _).bind fun _ => Follows.refl _

end

lemma follows_readValueWith {read full : Kind → Reader → Except Status Reader}
    (h : ∀ kind r, Follows (read kind r) (full kind r)) (r : Reader) :
    Follows (readValueWith storage read r) (readValueWith whole full r) := by
  unfold readValueWith
  dsimp only
  split
  · exact Follows.refl _
  · split
    · exact h _ _
    · split
      · exact h _ _
      · split
        · exact follows_readString storage _
        · split
          · exact (Follows.refl _).bind fun r => follows_push storage r _
          · split
            · exact (Follows.refl _).bind fun r => follows_push storage r _
            · split
              · exact (Follows.refl _).bind fun r => follows_push storage r _
              · split
                · exact follows_readNumber storage _
                · exact Follows.refl _

lemma follows_readValue (levels : ℕ) : ∀ r : Reader,
    Follows (readValue storage levels r) (readValue whole levels r) := by
  induction levels with
  | zero => exact fun r => follows_readValueWith storage (fun _ _ => Follows.refl _) r
  | succ levels ih =>
    exact fun r => follows_readValueWith storage
      (fun kind r => follows_readContainer storage ih kind r) r

end Reader

/-- A read is the one that would be if nothing were refused, unless it says it failed. -/
lemma follows_jsonRead (storage : ℕ → Bool) (text : List UInt8) :
    Follows (jsonRead storage text) (jsonRead (fun _ => true) text) :=
  (Reader.follows_readValue storage maxDepth ⟨[], [], text⟩).bind fun _ => Follows.refl _

/-! ### Writing -/

/-- An output is the one that would be if nothing were refused, unless it says it failed. -/
def Out.Follows (out full : Out) : Prop :=
  full.failed = false ∧ (out.failed = true ∨ out = full)

namespace Out.Follows

variable {storage : ℕ → Bool} {out full : Out}

lemma refl (data : List UInt8) : Follows ⟨data, false⟩ ⟨data, false⟩ := ⟨rfl, Or.inr rfl⟩

lemma put (h : Follows out full) (bytes : List UInt8) :
    Follows (out.put storage bytes) (full.put (fun _ => true) bytes) := by
  obtain ⟨hfull, hout⟩ := h
  constructor
  · simp [Out.put, hfull]
  · rcases hout with hfailed | rfl
    · left
      simp [Out.put, hfailed]
    · cases hstorage : storage (out.data.length + bytes.length) with
      | true =>
        right
        simp [Out.put, hfull, hstorage]
      | false =>
        left
        simp [Out.put, hstorage]

lemma putRun (run bytes : List UInt8) : ∀ {out full : Out}, Follows out full →
    Follows (Out.putRun storage run bytes out) (Out.putRun (fun _ => true) run bytes full) := by
  induction bytes generalizing run with
  | nil => exact fun h => h.put run
  | cons b rest ih =>
    intro out full h
    simp only [Out.putRun]
    split
    · exact ih _ h
    · exact ih _ ((h.put run).put (escape b))

lemma putString (h : Follows out full) (bytes : List UInt8) :
    Follows (out.putString storage bytes) (full.putString (fun _ => true) bytes) :=
  (putRun [] bytes (h.put [34])).put [34]

lemma foldl {α : Type} {f g : Out → α → Out}
    (hstep : ∀ x out full, Follows out full → Follows (f out x) (g full x)) (xs : List α) :
    ∀ {out full : Out}, Follows out full → Follows (xs.foldl f out) (xs.foldl g full) := by
  induction xs with
  | nil => exact fun h => h
  | cons x xs ih => exact fun h => ih (hstep x _ _ h)

lemma comma {first : Prop} [Decidable first] (h : Follows out full) :
    Follows (if first then out else out.put storage [44])
      (if first then full else full.put (fun _ => true) [44]) := by
  split
  · exact h
  · exact h.put [44]

lemma putValue (tree : Tree) (fuel : ℕ) : ∀ (value : ℕ) {out full : Out}, Follows out full →
    Follows (Out.putValue storage tree fuel value out)
      (Out.putValue (fun _ => true) tree fuel value full) := by
  induction fuel with
  | zero => exact fun value out full h => h
  | succ fuel ih =>
    intro value out full h
    simp only [Out.putValue]
    cases tree.values[value]? with
    | none => exact h
    | some v =>
      dsimp only
      cases v.kind with
      | null => exact h.put _
      | no => exact h.put _
      | yes => exact h.put _
      | number => exact h.put _
      | string => exact h.putString _
      | array =>
        refine Follows.put (Follows.foldl ?_ _ (h.put _)) _
        intro member out full h
        exact ih member h.comma
      | object =>
        refine Follows.put (Follows.foldl ?_ _ (h.put _)) _
        intro member out full h
        exact ih (member + 1) ((ih member h.comma).put _)

end Out.Follows

end MarkdownCore.Json
