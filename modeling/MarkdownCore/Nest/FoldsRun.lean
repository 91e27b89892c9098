import Mathlib.Data.List.GetD
import MarkdownCore.Nest.Folds

/-!
# The folds kept are those of a full fold

A fold of a child changes the bits its kind folds by those bits and the child alone. So a block's
marks and passes, which hold those bits, stand for a fold of its children whatever else its flags
hold; a reading that goes on from a mark and steps over chunks leaves the bits a fold of all the
block's children leaves, and, its last fold always made, publishes what that publishes.
-/

namespace MarkdownCore.Nest

open ChunkFold

variable {kind : Kind} {block : Block} {child : Flags} {children : List Flags}

/-! ### The folded bits -/

/-- The bits of a block its kind folds. -/
def Block.bits (kind : Kind) (block : Block) : Flags := block.flags.and (foldedBits kind)

/-- What a child folds those bits to. -/
def foldBits (kind : Kind) (bits child : Flags) : Flags := (fold kind ⟨bits, false⟩ child).bits kind

lemma and_and_self (a mask : Flags) : (a.and mask).and mask = a.and mask := by
  have hbool : ∀ x m : Bool, ((x && m) && m) = (x && m) := by decide
  simp only [Flags.and, Flags.zip, hbool]

lemma diff_or_and (a b mask : Flags) : ((a.diff mask).or b).and mask = b.and mask := by
  have hbool : ∀ x y m : Bool, (((x && !m) || y) && m) = (y && m) := by decide
  simp only [Flags.and, Flags.or, Flags.diff, Flags.zip, hbool]

lemma bits_fold (kind : Kind) (block : Block) (child : Flags) :
    (fold kind block child).bits kind = foldBits kind (block.bits kind) child := by
  obtain ⟨propagates, folds⟩ := kind
  cases propagates <;> cases folds <;> cases hchild : child.blankTransparent <;>
    simp [foldBits, Block.bits, fold, foldChild, foldedBits, Flags.and, Flags.zip, Flags.none,
      hchild]

lemma bits_foldl (kind : Kind) (block : Block) (l : List Flags) :
    (l.foldl (fold kind) block).bits kind = l.foldl (foldBits kind) (block.bits kind) := by
  induction l generalizing block with
  | nil => rfl
  | cons child l ih => rw [List.foldl_cons, List.foldl_cons, ih, bits_fold]

lemma bits_openBlock (kind : Kind) (block : Block) (blank : Bool) :
    (openBlock kind block blank).bits kind = Flags.none := by
  obtain ⟨propagates, folds⟩ := kind
  cases propagates <;> cases folds <;>
    simp [Block.bits, openBlock, reopenList, foldedBits, Flags.and, Flags.zip, Flags.none]

lemma foldl_foldBits_and {l : List Flags} {bits : Flags} (h : bits.and (foldedBits kind) = bits) :
    (l.foldl (foldBits kind) bits).and (foldedBits kind) = l.foldl (foldBits kind) bits := by
  induction l generalizing bits with
  | nil => exact h
  | cons child l ih => exact ih (and_and_self _ _)

/-- A block whose kind folds nothing has no bits. -/
lemma bits_of_not_folding (h : (kind.blankPropagates || kind.folds) = false) (block : Block) :
    block.bits kind = Flags.none := by
  obtain ⟨hpropagates, hfolds⟩ := Bool.or_eq_false_iff.mp h
  simp [Block.bits, foldedBits, Flags.and, Flags.zip, Flags.none, hpropagates, hfolds]

/-! ### What is published -/

/-- A list is tight unless its bits say it is loose. -/
def Block.Laid (kind : Kind) (block : Block) : Prop :=
  kind.folds = true → block.tight = !block.flags.listLoose

lemma fold_laid (kind : Kind) (block : Block) (child : Flags) : (fold kind block child).Laid kind := by
  intro hfolds
  rw [fold, if_pos hfolds, foldChild]

lemma foldl_laid {l : List Flags} (hl : l ≠ []) (block : Block) :
    (l.foldl (fold kind) block).Laid kind := by
  rcases List.eq_nil_or_concat l with rfl | ⟨l', child, rfl⟩
  · exact absurd rfl hl
  · rw [List.concat_eq_append, List.foldl_append]
    exact fold_laid kind _ child

lemma tight_fold (h : kind.folds = false) (block : Block) (child : Flags) :
    (fold kind block child).tight = block.tight := by
  rw [fold]
  simp only [h, Bool.false_eq_true, if_false]
  split <;> rfl

lemma tight_foldl (h : kind.folds = false) (block : Block) (l : List Flags) :
    (l.foldl (fold kind) block).tight = block.tight := by
  induction l generalizing block with
  | nil => rfl
  | cons child l ih => rw [List.foldl_cons, ih, tight_fold h]

/-- Blocks laid out by the same bits are as tight. -/
lemma tight_of_bits {block' : Block} (h : block.Laid kind) (h' : block'.Laid kind)
    (hfolds : kind.folds = true) (hbits : block.bits kind = block'.bits kind) :
    block.tight = block'.tight := by
  have hloose := congrArg Flags.listLoose hbits
  have hmask : (foldedBits kind).listLoose = true := hfolds
  simp only [Block.bits, Flags.and, Flags.zip, hmask, Bool.and_true] at hloose
  rw [h hfolds, h' hfolds, hloose]

/-! ### The marks and passes -/

/-- The marks and passes of a block's children. -/
def Folds.Valid (kind : Kind) (children : List Flags) (folds : Folds) : Prop :=
  Marked (foldBits kind) foldChunk Flags.none children folds.flags ∧
    Passing (foldBits kind) foldChunk children folds.passes

lemma refold_fst (had : ℕ → Bool) (l : List Flags) (i : ℕ) (block : Block)
    (folds : Option Folds) : (refold kind had l i block folds).1 = l.foldl (fold kind) block := by
  induction l generalizing i block folds with
  | nil => rfl
  | cons child l ih =>
    rw [refold, ih]
    rfl

/-- A mark taken as the kept children fold again is theirs. -/
lemma refold_valid (had : ℕ → Bool) {l front rest : List Flags} {block : Block}
    {folds : Option Folds} (hchildren : children = front ++ l ++ rest)
    (hbits : block.bits kind = front.foldl (foldBits kind) Flags.none)
    (hfolds : ∀ f ∈ folds, f.Valid kind children) :
    ∀ f ∈ (refold kind had l front.length block folds).2, f.Valid kind children := by
  induction l generalizing front block folds with
  | nil => exact hfolds
  | cons child l ih =>
    have hbits' : (fold kind block child).bits kind =
        (front ++ [child]).foldl (foldBits kind) Flags.none := by
      rw [bits_fold, hbits, List.foldl_append]
      rfl
    have hlength : front.length + 1 = (front ++ [child]).length := by
      rw [List.length_append, List.length_singleton]
    rw [refold, hlength]
    apply ih
    · rw [hchildren]
      simp
    · exact hbits'
    · intro f hf
      obtain ⟨f', hf', rfl⟩ := Option.map_eq_some_iff.mp (Option.mem_def.mp hf)
      have hvalid := hfolds f' hf'
      split
      next hnext =>
        obtain ⟨hmod, hdiv, -⟩ := hnext
        refine ⟨hvalid.1.append ?_, hvalid.2⟩
        have htake : (f'.flags.length + 1) * foldChunk = (front ++ [child]).length := by
          rw [← hdiv]
          exact Nat.div_mul_cancel (Nat.dvd_of_mod_eq_zero hmod)
        have hsplit : children = (front ++ [child]) ++ (l ++ rest) := by
          rw [hchildren]
          simp
        rw [htake, hsplit, List.take_left]
        exact hbits'
      next => exact hvalid

/-- What a reopen of a level leaves: the bits of its kept children, its marks and passes theirs, laid
out by the last of them. -/
structure Opened (kind : Kind) (children : List Flags) (kept : ℕ) (blank : Bool) (block : Block)
    (result : Block × Option Folds) : Prop where
  bits : result.1.bits kind = (children.take kept).foldl (foldBits kind) Flags.none
  valid : ∀ f ∈ result.2, f.Valid kind children
  laid : children.take kept ≠ [] → result.1.Laid kind
  untouched : children.take kept = [] → result.1 = openBlock kind block blank
  tight : kind.folds = false → result.1.tight = block.tight

lemma tight_openBlock (h : kind.folds = false) (block : Block) (blank : Bool) :
    (openBlock kind block blank).tight = block.tight := by
  rw [openBlock, h]
  rfl

lemma reopenLevel_opened (had : ℕ → Bool) {kept : ℕ} (hkept : kept ≤ children.length)
    (blank : Bool) (block : Block) {folds : Option Folds} (hfolds : ∀ f ∈ folds, f.Valid kind children) :
    Opened kind children kept blank block
      (reopenLevel kind had children kept blank block folds) := by
  rw [reopenLevel]
  split
  next hfolding =>
    set mark := folds.elim 0 fun folds =>
      min (if kept = 0 then 0 else (kept - 1) / foldChunk) folds.flags.length with hmark
    by_cases hzero : mark = 0
    · rw [hzero]
      simp only [if_true, Nat.zero_mul, List.drop_zero]
      constructor
      · rw [refold_fst, bits_foldl, bits_openBlock]
      · exact @refold_valid kind children had _ [] (children.drop kept) _ _
          (List.take_append_drop kept children).symm (bits_openBlock kind block blank) hfolds
      · intro hne
        rw [refold_fst]
        exact foldl_laid hne _
      · intro hnil
        rw [refold_fst, hnil]
        rfl
      · intro h
        rw [refold_fst, tight_foldl h, tight_openBlock h]
    · cases hf : folds with
      | none =>
        rw [hf] at hmark
        exact absurd hmark hzero
      | some f =>
        obtain ⟨hmarked, -⟩ := hfolds f hf
        rw [hf] at hmark
        have hmark : mark = min (if kept = 0 then 0 else (kept - 1) / foldChunk) f.flags.length :=
          hmark
        have hpos : kept ≠ 0 := by
          rintro rfl
          rw [if_pos rfl, Nat.zero_min] at hmark
          exact hzero hmark
        rw [if_neg hpos] at hmark
        obtain ⟨c, hc⟩ := Nat.exists_eq_succ_of_ne_zero hzero
        have hlt : c < f.flags.length := by
          have := Nat.min_le_right ((kept - 1) / foldChunk) f.flags.length
          omega
        have hchunk : mark * foldChunk < kept := by
          have hle : mark ≤ (kept - 1) / foldChunk := hmark ▸ Nat.min_le_left _ _
          have := (Nat.mul_le_mul_right foldChunk hle).trans (Nat.div_mul_le_self _ _)
          omega
        dsimp only [Option.elim_some]
        rw [if_neg hzero]
        set marked := f.flags.getD (mark - 1) default with hmarkedDef
        have hget : f.flags[c]? = some marked := by
          have hsub : mark - 1 = c := by omega
          rw [hmarkedDef, hsub, List.getD_eq_getElem _ _ hlt]
          exact List.getElem?_eq_getElem hlt
        have hvalue := hmarked c marked hget
        rw [← Nat.succ_eq_add_one, ← hc] at hvalue
        set front := children.take (mark * foldChunk) with hfront
        have hlength : front.length = mark * foldChunk := List.length_take_of_le (by omega)
        have hsplit : front ++ (children.take kept).drop (mark * foldChunk) = children.take kept := by
          have htake : (children.take kept).take (mark * foldChunk) = front := by
            rw [List.take_take, Nat.min_eq_left hchunk.le]
          rw [← htake, List.take_append_drop]
        have hbits : (⟨((openBlock kind block blank).flags.diff (foldedBits kind)).or
            (marked.and (foldedBits kind)), (openBlock kind block blank).tight⟩ : Block).bits kind =
              front.foldl (foldBits kind) Flags.none := by
          rw [Block.bits, diff_or_and, and_and_self, hvalue]
          exact foldl_foldBits_and rfl
        have hdrop : (children.take kept).drop (mark * foldChunk) ≠ [] := by
          intro hnil
          have hzero := congrArg List.length hnil
          rw [List.length_drop, List.length_take_of_le hkept, List.length_nil] at hzero
          omega
        constructor
        · rw [refold_fst, bits_foldl, hbits, ← List.foldl_append, hsplit]
        · rw [← hlength]
          rw [← hlength] at hsplit
          have hall : children = front ++ (children.take kept).drop front.length ++
              children.drop kept := by
            rw [hsplit, List.take_append_drop]
          exact refold_valid had hall hbits (hf ▸ hfolds)
        · intro _
          rw [refold_fst]
          exact foldl_laid hdrop _
        · intro hnil
          rw [hnil, List.drop_nil] at hdrop
          exact absurd rfl hdrop
        · intro h
          rw [refold_fst, tight_foldl h]
          exact tight_openBlock h block blank
  next hnot =>
    have hnot : (kind.blankPropagates || kind.folds) = false := by simpa using hnot
    obtain ⟨-, hnotFolds⟩ := Bool.or_eq_false_iff.mp hnot
    constructor
    · have hall := bits_foldl kind (openBlock kind block blank) (children.take kept)
      rw [bits_openBlock] at hall
      rw [← hall, bits_of_not_folding hnot, bits_of_not_folding hnot]
    · exact hfolds
    · intro _ h
      rw [hnotFolds] at h
      cases h
    · exact fun _ => rfl
    · exact fun h => tight_openBlock h block blank

/-! ### Passes -/

lemma keepPass_valid {folds : Folds} (h : folds.Valid kind children) (c : ℕ)
    {pass : Flags × Flags}
    (hpass : pass.2 = (chunk foldChunk children c).foldl (foldBits kind) pass.1) :
    (keepPass folds c pass).Valid kind children := by
  refine ⟨h.1, ?_⟩
  have hgrown := h.2.append_replicate (c + 1 - folds.passes.length)
  apply hgrown.set
  set grown := folds.passes ++ List.replicate (c + 1 - folds.passes.length) [] with hgrownDef
  have hheld : ∀ p ∈ grown.getD c [], p.2 = (chunk foldChunk children c).foldl (foldBits kind) p.1 := by
    intro p hp
    by_cases hlt : c < grown.length
    · rw [List.getD_eq_getElem _ _ hlt] at hp
      exact hgrown c _ (List.getElem?_eq_getElem hlt) p hp
    · rw [List.getD_eq_default _ _ (not_lt.mp hlt)] at hp
      cases hp
  intro p hp
  split at hp
  · rcases List.mem_append.mp hp with hp | hp
    · exact hheld p hp
    · rw [List.mem_singleton.mp hp]
      exact hpass
  · rcases List.mem_or_eq_of_mem_set hp with hp | rfl
    · exact hheld p hp
    · exact hpass

/-- What a pass gives: the bits the chunk folds the block's to, the block as it was but for what the
fold publishes. -/
lemma foldPass_spec (had : ℕ → Bool) (c : ℕ) (block : Block) {folds : Folds}
    (h : folds.Valid kind children) :
    (foldPass kind had children c block folds).1 =
        (chunk foldChunk children c).foldl (foldBits kind) (block.bits kind) ∧
      (foldPass kind had children c block folds).2.2.Valid kind children ∧
      (kind.folds = false → (foldPass kind had children c block folds).2.1.tight = block.tight) := by
  rw [foldPass]
  dsimp only
  cases hfind : findPass folds c (block.flags.and (foldedBits kind)) with
  | some bits =>
    refine ⟨?_, h, fun _ => rfl⟩
    obtain ⟨p, hp, rfl⟩ := Option.map_eq_some_iff.mp hfind
    have hmem := List.mem_of_find?_eq_some hp
    have heq : p.1 = block.flags.and (foldedBits kind) := by simpa using List.find?_some hp
    cases hpass : folds.passes[c]? with
    | none =>
      rw [hpass] at hmem
      cases hmem
    | some pass =>
      rw [hpass] at hmem
      have hvalue := h.2 c pass hpass p hmem
      rw [heq] at hvalue
      exact hvalue
  | none =>
    have hfolded := bits_foldl kind block (chunk foldChunk children c)
    refine ⟨hfolded, ?_, fun hfolds => tight_foldl hfolds _ _⟩
    dsimp only
    split
    · exact keepPass_valid h c hfolded
    · exact h

/-- What folding the old children from one on leaves: the bits they fold, the marks and passes
theirs, laid out by the last of them. -/
lemma foldOldFrom_spec (had : ℕ → Bool) {fuel i : ℕ} {block : Block} {folds : Option Folds}
    (hfuel : children.length ≤ fuel + i) (hfolds : ∀ f ∈ folds, f.Valid kind children) :
    (foldOldFrom kind had children fuel i block folds).1.bits kind =
        (children.drop i).foldl (foldBits kind) (block.bits kind) ∧
      (∀ f ∈ (foldOldFrom kind had children fuel i block folds).2, f.Valid kind children) ∧
      (i < children.length → (foldOldFrom kind had children fuel i block folds).1.Laid kind) ∧
      (children.length ≤ i → (foldOldFrom kind had children fuel i block folds).1 = block) ∧
      (kind.folds = false →
        (foldOldFrom kind had children fuel i block folds).1.tight = block.tight) := by
  induction fuel generalizing i block folds with
  | zero =>
    have hi : children.length ≤ i := by omega
    rw [foldOldFrom, List.drop_eq_nil_of_le hi]
    exact ⟨rfl, hfolds, fun hlt => absurd hlt (not_lt.mpr hi), fun _ => rfl, fun _ => rfl⟩
  | succ fuel ih =>
    by_cases hi : i < children.length
    · have hsingle : ∀ folds : Option Folds, (∀ f ∈ folds, f.Valid kind children) →
          (foldOldFrom kind had children fuel (i + 1)
            (fold kind block (children.getD i default)) folds).1.bits kind =
              (children.drop i).foldl (foldBits kind) (block.bits kind) ∧
          (∀ f ∈ (foldOldFrom kind had children fuel (i + 1)
            (fold kind block (children.getD i default)) folds).2, f.Valid kind children) ∧
          (foldOldFrom kind had children fuel (i + 1)
            (fold kind block (children.getD i default)) folds).1.Laid kind ∧
          (kind.folds = false → (foldOldFrom kind had children fuel (i + 1)
            (fold kind block (children.getD i default)) folds).1.tight = block.tight) := by
        intro folds hfolds
        obtain ⟨hbits, hvalid, hlaid, hend, htight⟩ := @ih (i + 1)
          (fold kind block (children.getD i default)) folds (by omega) hfolds
        refine ⟨?_, hvalid, ?_, ?_⟩
        · rw [hbits, bits_fold, List.drop_eq_getElem_cons hi, List.getD_eq_getElem _ _ hi]
          rfl
        · rcases Nat.lt_or_ge (i + 1) children.length with hlt | hge
          · exact hlaid hlt
          · rw [hend hge]
            exact fold_laid kind block _
        · intro h
          rw [htight h, tight_fold h]
      have hdone : ∀ {result : Block × Option Folds},
          (result.1.bits kind = (children.drop i).foldl (foldBits kind) (block.bits kind) ∧
            (∀ f ∈ result.2, f.Valid kind children) ∧ result.1.Laid kind ∧
            (kind.folds = false → result.1.tight = block.tight)) →
          result.1.bits kind = (children.drop i).foldl (foldBits kind) (block.bits kind) ∧
            (∀ f ∈ result.2, f.Valid kind children) ∧
            (i < children.length → result.1.Laid kind) ∧
            (children.length ≤ i → result.1 = block) ∧
            (kind.folds = false → result.1.tight = block.tight) := by
        rintro result ⟨hbits, hvalid, hlaid, htight⟩
        exact ⟨hbits, hvalid, fun _ => hlaid, fun hle => absurd hi (not_lt.mpr hle), htight⟩
      apply hdone
      rw [foldOldFrom.eq_def]
      dsimp only
      rw [if_pos hi]
      cases hf : folds with
      | none => exact hsingle none (hf ▸ hfolds)
      | some f =>
        dsimp only
        split
        next hchunk =>
          obtain ⟨hmod, hroom⟩ := hchunk
          have hvalid := hfolds f hf
          obtain ⟨hbits, hvalid', htight⟩ :=
            @foldPass_spec kind children had (i / foldChunk) block f hvalid
          set passed := foldPass kind had children (i / foldChunk) block f with hpassed
          have hstart : i / foldChunk * foldChunk = i :=
            Nat.div_mul_cancel (Nat.dvd_of_mod_eq_zero hmod)
          have hmasked : passed.1.and (foldedBits kind) = passed.1 := by
            rw [hbits]
            exact foldl_foldBits_and (and_and_self _ _)
          obtain ⟨hbits', hvalid'', hlaid, -, htight'⟩ := @ih (i + foldChunk)
            ⟨(passed.2.1.flags.diff (foldedBits kind)).or passed.1, passed.2.1.tight⟩
            (some passed.2.2) (by simp only [foldChunk]; omega)
            (fun f hf => by rw [← Option.some.inj (Option.mem_def.mp hf)]; exact hvalid')
          refine ⟨?_, hvalid'', hlaid hroom, ?_⟩
          · rw [hbits', Block.bits, diff_or_and, hmasked, hbits, chunk, hstart,
              ← List.foldl_append, ← List.drop_drop, List.take_append_drop]
          · intro h
            rw [htight' h]
            exact htight h
        next => exact hsingle (some f) (hf ▸ hfolds)
    · have hle := not_lt.mp hi
      rw [foldOldFrom.eq_def]
      dsimp only
      rw [if_neg hi, List.drop_eq_nil_of_le hle]
      exact ⟨rfl, hfolds, fun hlt => absurd hlt hi, fun _ => rfl, fun _ => rfl⟩

/-! ### A reading -/

/-- The marks and passes `session_mend_nests` keeps are those of the children the reading left. -/
lemma mendFolds_valid {folds : Folds} (h : folds.Valid kind children) {children' : List Flags}
    {path : ℕ} {tail : Option ℕ} (htake : children'.take path = children.take path)
    (hdrop : ∀ last ∈ tail, children'.length = children.length →
      children'.drop last = children.drop last) :
    (mendFolds folds path children.length children'.length tail).Valid kind children' := by
  have hchunk : path / foldChunk * foldChunk ≤ path := Nat.div_mul_le_self _ _
  have hbefore : ∀ c < path / foldChunk,
      chunk foldChunk children' c = chunk foldChunk children c := by
    intro c hc
    exact chunk_of_take_eq htake ((Nat.mul_le_mul_right foldChunk hc).trans hchunk)
  constructor
  · exact h.1.take htake hchunk
  · apply h.2.of_stands
    intro c pass hc hne
    rw [mendFolds] at hc
    dsimp only at hc
    cases hlast : (if children'.length = children.length then tail else none) with
    | none =>
      rw [hlast] at hc
      have hlt : c < path / foldChunk := by
        by_contra hle
        rw [List.getElem?_take, if_neg hle] at hc
        cases hc
      rw [List.getElem?_take_of_lt hlt] at hc
      exact ⟨hc, hbefore c hlt⟩
    | some last =>
      rw [hlast] at hc
      obtain ⟨pass', hpass', hif⟩ := Option.map_eq_some_iff.mp
        ((List.getElem?_mapIdx ..).symm.trans hc)
      split at hif
      next => exact absurd hif.symm hne
      next hout =>
        subst hif
        refine ⟨hpass', ?_⟩
        rcases Nat.lt_or_ge c (path / foldChunk) with hlt | hge
        · exact hbefore c hlt
        · split at hlast
          next hcount =>
            have hpast : last / foldChunk < c := by
              by_contra hle
              exact hout ⟨hge, not_lt.mp hle⟩
            have hstart : last ≤ c * foldChunk :=
              ((Nat.div_lt_iff_lt_mul (by decide)).mp hpast).le
            exact chunk_of_drop_eq (hdrop last (Option.mem_def.mpr hlast) hcount) hstart
          next => cases hlast

/-- The block as a reading leaves it: its bits are those all of its children fold, and it is laid out
by the last of them. -/
structure Rereading.Settled (kind : Kind) (r : Rereading) (nest : Folding) : Prop where
  bits : (r.folded kind nest).1.bits kind =
    (r.children nest).foldl (foldBits kind) Flags.none
  valid : ∀ f ∈ (r.folded kind nest).2, f.Valid kind nest.children
  laid : r.children nest ≠ [] → (r.folded kind nest).1.Laid kind
  untouched : r.children nest = [] → (r.folded kind nest).1 = openBlock kind r.block r.blank
  tight : kind.folds = false → (r.folded kind nest).1.tight = r.block.tight

lemma Rereading.settled {nest : Folding} (hvalid : ∀ f ∈ nest.folds, f.Valid kind nest.children)
    {r : Rereading} (hfits : r.Fits nest) : r.Settled kind nest := by
  have hopened := @reopenLevel_opened kind nest.children r.had r.kept
    (hfits.kept_le.trans hfits.keeps_le) r.blank r.block nest.folds hvalid
  set opened := reopenLevel kind r.had nest.children r.kept r.blank r.block nest.folds with hopen
  set settled := r.read.foldl (fold kind) opened.1 with hsettled
  have hbits : settled.bits kind =
      (nest.children.take r.kept ++ r.read).foldl (foldBits kind) Flags.none := by
    rw [hsettled, bits_foldl, hopened.bits, List.foldl_append]
  have hlaid : nest.children.take r.kept ++ r.read ≠ [] → settled.Laid kind := by
    intro hne
    by_cases hread : r.read = []
    · rw [hsettled, hread]
      rw [hread, List.append_nil] at hne
      exact hopened.laid hne
    · exact foldl_laid hread _
  have huntouched : nest.children.take r.kept ++ r.read = [] →
      settled = openBlock kind r.block r.blank := by
    intro hnil
    obtain ⟨hkept, hread⟩ := List.append_eq_nil_iff.mp hnil
    rw [hsettled, hread]
    exact hopened.untouched hkept
  have htight : kind.folds = false → settled.tight = r.block.tight := by
    intro h
    rw [hsettled, tight_foldl h]
    exact hopened.tight h
  cases hfirst : r.first with
  | none =>
    have hfolded : r.folded kind nest = (settled, opened.2) := by
      rw [folded, hfirst]
    have hchildren : r.children nest = nest.children.take r.kept ++ r.read := by
      rw [Rereading.children, hfirst]
      exact List.append_nil _
    constructor
    · rw [hfolded, hchildren]
      exact hbits
    · rw [hfolded]
      exact hopened.valid
    · rw [hfolded, hchildren]
      exact hlaid
    · rw [hfolded, hchildren]
      exact huntouched
    · rw [hfolded]
      exact htight
  | some first =>
    have hfolded : r.folded kind nest =
        foldOld kind r.had nest.children r.keeps first settled opened.2 := by
      rw [folded, hfirst]
    have hchildren : r.children nest =
        nest.children.take r.kept ++ r.read ++ nest.children.drop (r.keeps + first) := by
      rw [Rereading.children, hfirst]
      rfl
    by_cases hfolding : (kind.blankPropagates || kind.folds) = true
    · rw [foldOld, if_pos hfolding] at hfolded
      obtain ⟨hold, hvalid', hlaid', hend, htight'⟩ :=
        @foldOldFrom_spec kind nest.children r.had nest.children.length (r.keeps + first) settled
          opened.2 (Nat.le_add_right _ _) hopened.valid
      constructor
      · rw [hfolded, hchildren, hold, List.foldl_append, hbits]
      · rw [hfolded]
        exact hvalid'
      · intro hne
        rw [hfolded]
        rcases Nat.lt_or_ge (r.keeps + first) nest.children.length with hlt | hge
        · exact hlaid' hlt
        · rw [hend hge]
          apply hlaid
          rwa [hchildren, List.drop_eq_nil_of_le hge, List.append_nil] at hne
      · intro hnil
        rw [hchildren] at hnil
        obtain ⟨hread, hdrop⟩ := List.append_eq_nil_iff.mp hnil
        rw [hfolded, hend (List.drop_eq_nil_iff.mp hdrop)]
        exact huntouched hread
      · intro h
        rw [hfolded, htight' h]
        exact htight h
    · rw [foldOld, if_neg hfolding] at hfolded
      have hnot : (kind.blankPropagates || kind.folds) = false := by simpa using hfolding
      obtain ⟨-, hnotFolds⟩ := Bool.or_eq_false_iff.mp hnot
      constructor
      · have hall := bits_foldl kind (openBlock kind r.block r.blank) (r.children nest)
        rw [bits_openBlock] at hall
        rw [← hall, bits_of_not_folding hnot, bits_of_not_folding hnot]
      · rw [hfolded]
        exact hopened.valid
      · intro _ h
        rw [hnotFolds] at h
        cases h
      · intro hnil
        rw [hchildren] at hnil
        rw [hfolded]
        exact huntouched (List.append_eq_nil_iff.mp hnil).1
      · intro h
        rw [hfolded]
        exact htight h

/-- After a reading, `session_mend_nests` done, the marks and passes are those of the new
children. -/
lemma Rereading.next_valid {nest : Folding}
    (hvalid : ∀ f ∈ nest.folds, f.Valid kind nest.children) {r : Rereading}
    (hfits : r.Fits nest) : ∀ f ∈ (r.next kind nest).folds, f.Valid kind (r.children nest) := by
  intro f hf
  obtain ⟨folds, hfolds, rfl⟩ := Option.map_eq_some_iff.mp (Option.mem_def.mp hf)
  have hkept : (nest.children.take r.kept).length = r.kept :=
    List.length_take_of_le (hfits.kept_le.trans hfits.keeps_le)
  have hchildren : r.children nest = nest.children.take r.kept ++ (r.read ++
      r.first.elim [] fun first => nest.children.drop (r.keeps + first)) := List.append_assoc _ _ _
  apply mendFolds_valid ((Rereading.settled hvalid hfits).valid folds hfolds)
  · rw [hchildren]
    exact List.take_left' hkept
  · intro last hlast hcount
    obtain ⟨first, hfirst, rfl⟩ := Option.map_eq_some_iff.mp (Option.mem_def.mp hlast)
    have hle := hfits.first_le first hfirst
    have hlength : (nest.children.take r.kept ++ r.read).length = r.kept + r.read.length := by
      rw [List.length_append, hkept]
    have hsplit : r.children nest =
        nest.children.take r.kept ++ r.read ++ nest.children.drop (r.keeps + first) := by
      rw [Rereading.children, hfirst]
      rfl
    have hsame : r.kept + r.read.length = r.keeps + first := by
      rw [hsplit, List.length_append, hlength, List.length_drop] at hcount
      omega
    rw [hsplit, ← hlength, List.drop_left, hlength, hsame]

lemma Reached.valid {nest : Folding} (h : Reached kind nest) :
    ∀ f ∈ nest.folds, f.Valid kind nest.children := by
  induction h with
  | start children =>
    intro f hf
    rw [← Option.some.inj (Option.mem_def.mp hf)]
    exact ⟨marked_nil, passing_nil⟩
  | none children =>
    intro f hf
    cases hf
  | read r _ hfits ih => exact Rereading.next_valid ih hfits
  | look had kept blank block _ hkept ih =>
    exact (reopenLevel_opened had hkept blank block ih).valid

/-- The marks and passes are those a full fold of the children makes. -/
def Folding.OfFullFold (kind : Kind) (nest : Folding) : Prop :=
  ∀ folds ∈ nest.folds,
    (∀ c mark, folds.flags[c]? = some mark → ∀ block blank,
      mark = (foldAll kind block blank (nest.children.take ((c + 1) * foldChunk))).flags.and
        (foldedBits kind)) ∧
    ∀ c pass, folds.passes[c]? = some pass → ∀ p ∈ pass, ∀ block : Block,
      block.flags.and (foldedBits kind) = p.1 →
        p.2 = ((chunk foldChunk nest.children c).foldl (fold kind) block).flags.and (foldedBits kind)

lemma bits_foldAll (kind : Kind) (block : Block) (blank : Bool) (l : List Flags) :
    (foldAll kind block blank l).bits kind = l.foldl (foldBits kind) Flags.none := by
  rw [foldAll, bits_foldl, bits_openBlock]

/-- The marks and passes kept of a block's folds are those of a full fold of its children, whatever
readings went before; and a reading that goes on from them leaves the bits the block's kind folds,
and what it publishes, as a full fold of the children it leaves does. -/
theorem folds_equal_full_fold (kind : Kind) {nest : Folding} (h : Reached kind nest) :
    nest.OfFullFold kind ∧
      ∀ r : Rereading, r.Fits nest →
        (r.next kind nest).OfFullFold kind ∧
          (r.folded kind nest).1.flags.and (foldedBits kind) =
            (foldAll kind r.block r.blank (r.children nest)).flags.and (foldedBits kind) ∧
          (r.folded kind nest).1.tight = (foldAll kind r.block r.blank (r.children nest)).tight := by
  have hfull : ∀ {nest : Folding}, Reached kind nest → nest.OfFullFold kind := by
    intro nest h folds hfolds
    obtain ⟨hmarked, hpassing⟩ := h.valid folds hfolds
    constructor
    · intro c mark hc block blank
      rw [hmarked c mark hc]
      exact (bits_foldAll kind block blank _).symm
    · intro c pass hc p hp block hbits
      rw [hpassing c pass hc p hp, ← hbits]
      exact (bits_foldl kind block _).symm
  refine ⟨hfull h, ?_⟩
  intro r hfits
  have hsettled := Rereading.settled h.valid hfits
  have hbits : (r.folded kind nest).1.bits kind =
      (foldAll kind r.block r.blank (r.children nest)).bits kind := by
    rw [hsettled.bits, bits_foldAll]
  refine ⟨hfull (.read r h hfits), hbits, ?_⟩
  by_cases hnil : r.children nest = []
  · rw [hsettled.untouched hnil, hnil]
    rfl
  · cases hfolds : kind.folds with
    | false =>
      rw [hsettled.tight hfolds, foldAll, tight_foldl hfolds, tight_openBlock hfolds]
    | true => exact tight_of_bits (hsettled.laid hnil) (foldl_laid hnil _) hfolds hbits

/-- A list's kind. -/
def listKind : Kind := ⟨true, true⟩

/-- A reading of one item of a list of three, the last taken back. -/
def sampleRereading : Rereading where
  block := ⟨Flags.none, true⟩
  blank := false
  had := fun _ => true
  kept := 1
  keeps := 1
  read := [{ Flags.none with lastLineBlank := true }]
  first := some 1

/-- A list of three items read as paragraphs without blank lines. -/
def sampleFolding : Folding := ⟨[Flags.none, Flags.none, Flags.none], some ⟨[], []⟩⟩

lemma sampleRereading_fits : sampleRereading.Fits sampleFolding where
  kept_le := le_rfl
  keeps_le := by decide
  first_le first h := by
    cases h
    decide

theorem folds_equal_full_fold_sample :
    (sampleRereading.next listKind sampleFolding).OfFullFold listKind ∧
      ∀ r : Rereading, r.Fits (sampleRereading.next listKind sampleFolding) →
        (r.next listKind (sampleRereading.next listKind sampleFolding)).OfFullFold listKind ∧
          (r.folded listKind (sampleRereading.next listKind sampleFolding)).1.flags.and
              (foldedBits listKind) =
            (foldAll listKind r.block r.blank (r.children
              (sampleRereading.next listKind sampleFolding))).flags.and (foldedBits listKind) ∧
          (r.folded listKind (sampleRereading.next listKind sampleFolding)).1.tight =
            (foldAll listKind r.block r.blank (r.children
              (sampleRereading.next listKind sampleFolding))).tight :=
  folds_equal_full_fold listKind (.read sampleRereading (.start _) sampleRereading_fits)

/-- A blank line after an item makes the list loose once an item follows it. -/
example : (sampleRereading.folded listKind sampleFolding).1.tight = false := by decide

end MarkdownCore.Nest
