import Mathlib.Data.List.DropRight
import Mathlib.Data.List.TakeWhile

/-!
# Squeezing blanks

A sequence is trimmed at both ends, and each run of spaces inside it becomes one blank. One pass
that remembers a run of spaces, and writes the blank once something follows it, does both. What
is squeezed stays as it is when it is squeezed again, and where spaces are spaces and words are
words, a substitution of items may come before or behind the squeezing.
-/

namespace Squeeze

variable {α β : Type*}

section
variable (isSpace : α → Bool) (blank : α)

/-- One pass: whether something was written, and whether a run of spaces has been met since. -/
@[grind =] def pass : Bool → Bool → List α → List α
  | _, _, [] => []
  | started, space, a :: rest =>
    if isSpace a then pass started started rest
    else if space then blank :: a :: pass true false rest
    else a :: pass true false rest

/-- Without the spaces at both ends. -/
def trim (l : List α) : List α := (l.dropWhile isSpace).rdropWhile isSpace

/-- With one blank for each run of spaces. -/
@[grind =] def collapse : List α → List α
  | [] => []
  | a :: rest =>
    if isSpace a then blank :: collapse (rest.dropWhile isSpace) else a :: collapse rest
termination_by l => l.length
decreasing_by
  · exact Nat.lt_succ_of_le (List.dropWhile_sublist _).length_le
  · exact Nat.lt_succ_self _

end

variable {isSpace : α → Bool} {blank : α}

lemma collapse_space {a : α} {rest : List α} (h : isSpace a = true) :
    collapse isSpace blank (a :: rest) =
      blank :: collapse isSpace blank (rest.dropWhile isSpace) := by
  rw [collapse, if_pos h]

lemma collapse_word {a : α} {rest : List α} (h : isSpace a = false) :
    collapse isSpace blank (a :: rest) = a :: collapse isSpace blank rest := by
  rw [collapse, if_neg (by simp [h])]

/-! ### One pass for two -/

lemma rdropWhile_cons (a : α) (l : List α) :
    (a :: l).rdropWhile isSpace =
      if l.rdropWhile isSpace = [] then (if isSpace a then [] else [a])
      else a :: l.rdropWhile isSpace := by
  rw [List.rdropWhile, List.rdropWhile, List.reverse_cons, List.dropWhile_append]
  cases h : l.reverse.dropWhile isSpace with
  | nil =>
    simp only [List.isEmpty_nil, if_true, List.reverse_nil]
    cases ha : isSpace a <;> simp [ha]
  | cons b rest => simp

/-- Where a word was written, the pass squeezes what follows it; where a run of spaces was met
since, it writes the blank once a word follows. -/
lemma pass_started (l : List α) :
    pass isSpace blank true false l = collapse isSpace blank (l.rdropWhile isSpace) ∧
      pass isSpace blank true true l =
        if l.rdropWhile isSpace = [] then []
        else blank :: collapse isSpace blank ((l.rdropWhile isSpace).dropWhile isSpace) := by
  induction l with
  | nil => simp [pass, collapse]
  | cons a l ih =>
    obtain ⟨ih₁, ih₂⟩ := ih
    cases ha : isSpace a with
    | true =>
      have hpass : ∀ space, pass isSpace blank true space (a :: l) =
          pass isSpace blank true true l := fun space => by rw [pass, if_pos ha]
      rw [hpass, hpass, ih₂, rdropWhile_cons]
      by_cases hnil : l.rdropWhile isSpace = []
      · simp [hnil, ha, collapse]
      · rw [if_neg hnil, if_neg hnil, if_neg (by simp), collapse_space ha,
          List.dropWhile_cons_of_pos ha]
        exact ⟨rfl, rfl⟩
    | false =>
      have hcut : (a :: l).rdropWhile isSpace = a :: l.rdropWhile isSpace := by
        rw [rdropWhile_cons]
        by_cases hnil : l.rdropWhile isSpace = []
        · rw [if_pos hnil, if_neg (by simp [ha]), hnil]
        · rw [if_neg hnil]
      have hword : ¬ isSpace a = true := by simp [ha]
      rw [hcut, pass, if_neg hword, if_neg (by simp), pass, if_neg hword, if_pos rfl, ih₁,
        if_neg (by simp), List.dropWhile_cons_of_neg hword, collapse_word ha]
      exact ⟨rfl, rfl⟩

/-- Before the first word, spaces are passed over. -/
lemma pass_unstarted (l : List α) :
    pass isSpace blank false false l = pass isSpace blank true false (l.dropWhile isSpace) := by
  induction l with
  | nil => rfl
  | cons a l ih =>
    cases ha : isSpace a with
    | true => rw [pass, if_pos ha, ih, List.dropWhile_cons_of_pos ha]
    | false =>
      have hword : ¬ isSpace a = true := by simp [ha]
      rw [List.dropWhile_cons_of_neg hword, pass, if_neg hword, pass, if_neg hword]

/-- One pass trims and collapses. -/
theorem pass_eq (l : List α) :
    pass isSpace blank false false l = collapse isSpace blank (trim isSpace l) := by
  rw [pass_unstarted, (pass_started _).1, trim]

lemma mem_pass {x : α} {l : List α} {started space : Bool}
    (h : x ∈ pass isSpace blank started space l) : x ∈ l ∨ x = blank := by
  induction l generalizing started space with
  | nil => exact Or.inl h
  | cons a l ih =>
    rw [pass] at h
    cases ha : isSpace a with
    | true =>
      rw [if_pos ha] at h
      exact (ih h).imp_left (List.mem_cons_of_mem a)
    | false =>
      rw [if_neg (by simp [ha])] at h
      have hword : x ∈ a :: pass isSpace blank true false l → x ∈ a :: l ∨ x = blank := by
        intro h
        rcases List.mem_cons.mp h with rfl | h
        · exact Or.inl List.mem_cons_self
        · exact (ih h).imp_left (List.mem_cons_of_mem a)
      cases space with
      | true =>
        rcases List.mem_cons.mp h with hblank | h
        · exact Or.inr hblank
        · exact hword h
      | false => exact hword h

/-! ### Squeezed again -/

lemma pass_pass (hblank : isSpace blank = true) (l : List α) :
    pass isSpace blank true false (pass isSpace blank true false l) =
        pass isSpace blank true false l ∧
      pass isSpace blank true false (pass isSpace blank true true l) =
        pass isSpace blank true true l := by
  induction l with
  | nil => exact ⟨rfl, rfl⟩
  | cons a l ih =>
    cases ha : isSpace a with
    | true =>
      have hpass : ∀ space, pass isSpace blank true space (a :: l) =
          pass isSpace blank true true l := fun space => by rw [pass, if_pos ha]
      rw [hpass, hpass]
      exact ⟨ih.2, ih.2⟩
    | false =>
      have hword : ¬ isSpace a = true := by simp [ha]
      have hfree : ∀ rest, pass isSpace blank true false (a :: rest) =
          a :: pass isSpace blank true false rest :=
        fun rest => by rw [pass, if_neg hword, if_neg (by simp)]
      have hheld : ∀ rest, pass isSpace blank true true (a :: rest) =
          blank :: a :: pass isSpace blank true false rest :=
        fun rest => by rw [pass, if_neg hword, if_pos rfl]
      refine ⟨by rw [hfree, hfree, ih.1], ?_⟩
      rw [hheld, pass, if_pos hblank, hheld, ih.1]

/-- A squeezed sequence stays as it is. -/
theorem pass_idempotent (hblank : isSpace blank = true) (l : List α) :
    pass isSpace blank false false (pass isSpace blank false false l) =
      pass isSpace blank false false l := by
  rw [pass_unstarted l]
  cases h : l.dropWhile isSpace with
  | nil => rfl
  | cons a rest =>
    have hword : ¬ isSpace a = true := by
      have hhead := List.head_dropWhile_not isSpace (l := l) (by simp [h])
      simpa [h] using hhead
    have hfree : ∀ rest, pass isSpace blank true false (a :: rest) =
        a :: pass isSpace blank true false rest :=
      fun rest => by rw [pass, if_neg hword, if_neg (by simp)]
    rw [hfree, pass, if_neg hword, if_neg (by simp), (pass_pass hblank rest).1]

/-! ### Runs of spaces -/

lemma pass_spaces {spaces : List α} (hspaces : ∀ a ∈ spaces, isSpace a = true)
    (hne : spaces ≠ []) (rest : List α) (started space : Bool) :
    pass isSpace blank started space (spaces ++ rest) =
      pass isSpace blank started started rest := by
  induction spaces generalizing space with
  | nil => exact absurd rfl hne
  | cons a spaces ih =>
    obtain ⟨ha, hspaces⟩ := List.forall_mem_cons.mp hspaces
    rw [List.cons_append, pass, if_pos ha]
    cases spaces with
    | nil => rfl
    | cons b spaces => exact ih hspaces (by simp) started

lemma pass_append_congr {rest rest' : List α}
    (h : ∀ started space, pass isSpace blank started space rest =
      pass isSpace blank started space rest') (l : List α) (started space : Bool) :
    pass isSpace blank started space (l ++ rest) =
      pass isSpace blank started space (l ++ rest') := by
  induction l generalizing started space with
  | nil => exact h started space
  | cons a l ih =>
    rw [List.cons_append, List.cons_append, pass, pass, ih, ih]

/-- Which spaces stand between two parts, and how many, makes no difference. -/
theorem pass_spaces_congr {spaces spaces' : List α} (h : ∀ a ∈ spaces, isSpace a = true)
    (h' : ∀ a ∈ spaces', isSpace a = true) (hne : spaces ≠ []) (hne' : spaces' ≠ [])
    (l rest : List α) (started space : Bool) :
    pass isSpace blank started space (l ++ (spaces ++ rest)) =
      pass isSpace blank started space (l ++ (spaces' ++ rest)) := by
  refine pass_append_congr (fun started space => ?_) l started space
  rw [pass_spaces h hne, pass_spaces h' hne']

/-- Spaces at the front make no difference. -/
theorem pass_spaces_front {spaces : List α} (h : ∀ a ∈ spaces, isSpace a = true)
    (rest : List α) :
    pass isSpace blank false false (spaces ++ rest) = pass isSpace blank false false rest := by
  cases spaces with
  | nil => rfl
  | cons a spaces => exact pass_spaces h (by simp) rest false false

/-- Spaces at the end make no difference. -/
theorem pass_spaces_back {spaces : List α} (h : ∀ a ∈ spaces, isSpace a = true) (l : List α)
    (started space : Bool) :
    pass isSpace blank started space (l ++ spaces) = pass isSpace blank started space l := by
  cases spaces with
  | nil => rw [List.append_nil]
  | cons a spaces =>
    have hnone : ∀ started space, pass isSpace blank started space (a :: spaces) =
        pass isSpace blank started space [] := by
      intro started space
      have hpass := @pass_spaces α isSpace blank (a :: spaces) h (by simp) [] started space
      rw [List.append_nil] at hpass
      rw [hpass]
      rfl
    have hcongr := pass_append_congr hnone l started space
    rw [hcongr, List.append_nil]

/-! ### Substitution -/

section
variable {isSpace' : β → Bool} {blank' : β} {g : α → List β}

/-- A substitution that takes a space to a space and a word to a word, the blank to the blank. -/
structure Keeps (isSpace : α → Bool) (blank : α) (isSpace' : β → Bool) (blank' : β)
    (g : α → List β) : Prop where
  space : ∀ a, isSpace a = true → ∃ b, g a = [b] ∧ isSpace' b = true
  word : ∀ a, isSpace a = false → g a ≠ [] ∧ ∀ b ∈ g a, isSpace' b = false
  blank : g blank = [blank']

lemma pass_words {words : List β} (hwords : ∀ b ∈ words, isSpace' b = false) (rest : List β) :
    pass isSpace' blank' true false (words ++ rest) =
      words ++ pass isSpace' blank' true false rest := by
  induction words with
  | nil => rfl
  | cons b words ih =>
    obtain ⟨hb, hwords⟩ := List.forall_mem_cons.mp hwords
    rw [List.cons_append, pass, if_neg (by simp [hb]), if_neg (by simp), ih hwords,
      List.cons_append]

/-- Substitution and squeezing change places, on the items that occur. -/
theorem Keeps.pass_flatMap (h : Keeps isSpace blank isSpace' blank' g) (l : List α)
    (started space : Bool) :
    pass isSpace' blank' started space (l.flatMap g) =
      (pass isSpace blank started space l).flatMap g := by
  induction l generalizing started space with
  | nil => rfl
  | cons a l ih =>
    rw [List.flatMap_cons]
    cases ha : isSpace a with
    | true =>
      obtain ⟨b, hg, hb⟩ := h.space a ha
      rw [hg, List.singleton_append, pass, if_pos hb, ih, pass, if_pos ha]
    | false =>
      obtain ⟨hne, hwords⟩ := h.word a ha
      have hword : ¬ isSpace a = true := by simp [ha]
      cases hg : g a with
      | nil => exact absurd hg hne
      | cons b words =>
        rw [hg] at hwords
        obtain ⟨hb, hwords⟩ := List.forall_mem_cons.mp hwords
        rw [List.cons_append, pass, if_neg (by simp [hb]), pass_words hwords, ih, pass,
          if_neg hword]
        cases space with
        | true => simp [h.blank, hg]
        | false => simp [hg]

end

end Squeeze
