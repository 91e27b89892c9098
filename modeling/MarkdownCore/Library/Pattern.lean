import Mathlib.Computability.Language
import Mathlib.Tactic.Common

/-!
# Patterns and their longest match

Regular patterns over an alphabet, their languages, and the matcher that a generated scanner
stands for: of all the beginnings of a text that a pattern matches, the longest.
-/

namespace MarkdownCore

open Computability

/-- A regular pattern. -/
inductive Pattern (α : Type*) where
  | never
  | empty
  | one (p : α → Bool)
  | alt (r s : Pattern α)
  | seq (r s : Pattern α)
  | star (r : Pattern α)

namespace Pattern

variable {α : Type*}

/-- One time or more. -/
def plus (r : Pattern α) : Pattern α := .seq r (.star r)

/-- Once or not at all. -/
def opt (r : Pattern α) : Pattern α := .alt r .empty

/-- One after the other. -/
def word (rs : List (Pattern α)) : Pattern α := rs.foldr .seq .empty

/-- The texts a pattern matches. -/
@[grind =] def language : Pattern α → Language α
  | never => 0
  | empty => 1
  | one p => {w | ∃ c, p c = true ∧ w = [c]}
  | alt r s => r.language + s.language
  | seq r s => r.language * s.language
  | star r => r.language∗

/-- Whether a pattern matches the empty text. -/
def nullable : Pattern α → Bool
  | never => false
  | empty => true
  | one _ => false
  | alt r s => r.nullable || s.nullable
  | seq r s => r.nullable && s.nullable
  | star _ => true

/-- What is left of a pattern when a first symbol has been read. -/
def deriv (c : α) : Pattern α → Pattern α
  | never => never
  | empty => never
  | one p => if p c then empty else never
  | alt r s => alt (deriv c r) (deriv c s)
  | seq r s =>
    if r.nullable then alt (seq (deriv c r) s) (deriv c s) else seq (deriv c r) s
  | star r => seq (deriv c r) (star r)

/-- The length of the longest match at the beginning of a text. -/
def longest (r : Pattern α) : List α → Option ℕ
  | [] => if r.nullable then some 0 else none
  | c :: rest =>
    match longest (deriv c r) rest with
    | some n => some (n + 1)
    | none => if r.nullable then some 0 else none

lemma nullable_iff (r : Pattern α) : r.nullable = true ↔ [] ∈ r.language := by
  induction r with
  | never => simp [nullable, language]
  | empty => simp [nullable, language]
  | one p =>
    refine iff_of_false (by simp [nullable]) ?_
    rintro ⟨c, _, hc⟩
    simp at hc
  | alt r s ihr ihs =>
    simp only [nullable, Bool.or_eq_true, ihr, ihs, language, Language.mem_add]
  | seq r s ihr ihs =>
    simp only [nullable, Bool.and_eq_true, ihr, ihs, language, Language.mem_mul]
    constructor
    · rintro ⟨hr, hs⟩
      exact ⟨[], hr, [], hs, rfl⟩
    · rintro ⟨a, ha, b, hb, hab⟩
      obtain ⟨rfl, rfl⟩ := List.append_eq_nil_iff.mp hab
      exact ⟨ha, hb⟩
  | star r _ => exact iff_of_true rfl (Language.nil_mem_kstar _)

/-- A word that begins in a product begins in its first factor, or the first factor may be
empty. -/
lemma cons_mem_mul {l m : Language α} {c : α} {w : List α} :
    c :: w ∈ l * m ↔ (∃ a b, c :: a ∈ l ∧ b ∈ m ∧ w = a ++ b) ∨ ([] ∈ l ∧ c :: w ∈ m) := by
  rw [Language.mem_mul]
  constructor
  · rintro ⟨a, ha, b, hb, hab⟩
    cases a with
    | nil =>
      rw [List.nil_append] at hab
      exact Or.inr ⟨ha, hab ▸ hb⟩
    | cons d a =>
      rw [List.cons_append, List.cons.injEq] at hab
      obtain ⟨rfl, rfl⟩ := hab
      exact Or.inl ⟨a, b, ha, hb, rfl⟩
  · rintro (⟨a, b, ha, hb, rfl⟩ | ⟨hnil, hw⟩)
    · exact ⟨c :: a, ha, b, hb, rfl⟩
    · exact ⟨[], hnil, c :: w, hw, rfl⟩

lemma cons_mem_kstar {l : Language α} {c : α} {w : List α} :
    c :: w ∈ l∗ ↔ ∃ a b, c :: a ∈ l ∧ b ∈ l∗ ∧ w = a ++ b := by
  constructor
  · intro h
    obtain ⟨words, hflat, hwords⟩ := Language.mem_kstar_iff_exists_nonempty.mp h
    cases words with
    | nil => simp at hflat
    | cons word words =>
      obtain ⟨hword, hne⟩ := hwords word (List.mem_cons_self ..)
      obtain ⟨d, a, rfl⟩ := List.exists_cons_of_ne_nil hne
      rw [List.flatten_cons, List.cons_append, List.cons.injEq] at hflat
      obtain ⟨rfl, rfl⟩ := hflat
      refine ⟨a, words.flatten, hword, ?_, rfl⟩
      exact Language.join_mem_kstar fun y hy => (hwords y (List.mem_cons_of_mem _ hy)).1
  · rintro ⟨a, b, ha, hb, rfl⟩
    rw [← Language.one_add_self_mul_kstar_eq_kstar, Language.mem_add]
    exact Or.inr (Language.append_mem_mul ha hb)

lemma mem_deriv (c : α) (r : Pattern α) :
    ∀ w, w ∈ (deriv c r).language ↔ c :: w ∈ r.language := by
  induction r with
  | never => intro w; simp [deriv, language]
  | empty => intro w; simp [deriv, language]
  | one p =>
    intro w
    cases hp : p c with
    | true =>
      simp only [deriv, hp, if_true, language, Language.mem_one]
      constructor
      · rintro rfl
        exact ⟨c, hp, rfl⟩
      · rintro ⟨d, _, hd⟩
        exact (List.cons.inj hd).2
    | false =>
      simp only [deriv, hp, Bool.false_eq_true, if_false, language]
      refine iff_of_false (Language.notMem_zero _) ?_
      rintro ⟨d, hd, heq⟩
      rw [(List.cons.inj heq).1, hd] at hp
      simp at hp
  | alt r s ihr ihs =>
    intro w
    simp only [deriv, language, Language.mem_add, ihr, ihs]
  | seq r s ihr ihs =>
    intro w
    have hfirst : w ∈ (deriv c r).language * s.language ↔
        ∃ a b, c :: a ∈ r.language ∧ b ∈ s.language ∧ w = a ++ b := by
      rw [Language.mem_mul]
      constructor
      · rintro ⟨a, ha, b, hb, rfl⟩
        exact ⟨a, b, (ihr a).mp ha, hb, rfl⟩
      · rintro ⟨a, b, ha, hb, rfl⟩
        exact ⟨a, (ihr a).mpr ha, b, hb, rfl⟩
    cases hnull : r.nullable with
    | true =>
      have hnil := r.nullable_iff.mp hnull
      simp only [deriv, hnull, if_true, language, Language.mem_add]
      rw [hfirst, ihs, cons_mem_mul]
      simp [hnil]
    | false =>
      have hnil : [] ∉ r.language := by
        rw [← r.nullable_iff, hnull]
        simp
      simp only [deriv, hnull, Bool.false_eq_true, if_false, language]
      rw [hfirst, cons_mem_mul]
      simp [hnil]
  | star r ih =>
    intro w
    simp only [deriv, language]
    rw [cons_mem_kstar, Language.mem_mul]
    constructor
    · rintro ⟨a, ha, b, hb, rfl⟩
      exact ⟨a, b, (ih a).mp ha, hb, rfl⟩
    · rintro ⟨a, b, ha, hb, rfl⟩
      exact ⟨a, (ih a).mpr ha, b, hb, rfl⟩

/-- A word each symbol of which is in a language is in its closure. -/
lemma mem_kstar_of_singletons {l : Language α} {w : List α} (h : ∀ c ∈ w, [c] ∈ l) :
    w ∈ l∗ := by
  refine Language.mem_kstar.mpr ⟨w.map fun c => [c], ?_, ?_⟩
  · induction w with
    | nil => rfl
    | cons c w ih => simpa using ih fun d hd => h d (List.mem_cons_of_mem _ hd)
  · intro y hy
    obtain ⟨c, hc, rfl⟩ := List.mem_map.mp hy
    exact h c hc

lemma mem_star_one {p : α → Bool} {w : List α} :
    w ∈ (star (one p)).language ↔ ∀ c ∈ w, p c = true := by
  constructor
  · intro h
    obtain ⟨words, rfl, hwords⟩ := Language.mem_kstar.mp h
    intro c hc
    obtain ⟨y, hy, hcy⟩ := List.mem_flatten.mp hc
    obtain ⟨d, hd, rfl⟩ := hwords y hy
    rw [List.mem_singleton.mp hcy]
    exact hd
  · intro h
    exact mem_kstar_of_singletons fun c hc => ⟨c, h c hc, rfl⟩

lemma mem_plus_one {p : α → Bool} {w : List α} :
    w ∈ (plus (one p)).language ↔ w ≠ [] ∧ ∀ c ∈ w, p c = true := by
  constructor
  · rintro ⟨a, ⟨c, hc, rfl⟩, b, hb, rfl⟩
    have hrest := mem_star_one.mp hb
    refine ⟨by simp, ?_⟩
    intro d hd
    rcases List.mem_cons.mp hd with rfl | hmem
    · exact hc
    · exact hrest d hmem
  · rintro ⟨hne, h⟩
    obtain ⟨c, b, rfl⟩ := List.exists_cons_of_ne_nil hne
    exact ⟨[c], ⟨c, h c (List.mem_cons_self ..), rfl⟩, b,
      mem_star_one.mpr fun d hd => h d (List.mem_cons_of_mem _ hd), rfl⟩

/-- If any beginning of a text matches, there is a longest one that does. -/
lemma exists_longest {r : Pattern α} {w : List α} {m : ℕ} (hm : m ≤ w.length)
    (hmem : w.take m ∈ r.language) :
    ∃ k, k ≤ w.length ∧ w.take k ∈ r.language ∧
      ∀ j, j ≤ w.length → w.take j ∈ r.language → j ≤ k := by
  classical
  have hspec := Nat.findGreatest_spec (P := fun k => w.take k ∈ r.language) hm hmem
  exact ⟨_, Nat.findGreatest_le _, hspec, fun j hj hj' => Nat.le_findGreatest hj hj'⟩

/-- The matcher finds a match, and no longer one. -/
lemma longest_eq_some {w : List α} : ∀ {r : Pattern α} {n : ℕ}, r.longest w = some n ↔
    n ≤ w.length ∧ w.take n ∈ r.language ∧
      ∀ m, m ≤ w.length → w.take m ∈ r.language → m ≤ n := by
  induction w with
  | nil =>
    intro r n
    simp only [longest, List.length_nil, Nat.le_zero, List.take_nil]
    rw [← r.nullable_iff]
    cases r.nullable with
    | true =>
      simp only [if_true, Option.some.injEq]
      constructor
      · rintro rfl
        exact ⟨rfl, trivial, fun m hm _ => hm.le⟩
      · exact fun h => h.1.symm
    | false => simp
  | cons c w ih =>
    intro r n
    have htake : ∀ m, (c :: w).take (m + 1) ∈ r.language ↔
        w.take m ∈ (deriv c r).language := fun m => (mem_deriv c r _).symm
    have hnull : (c :: w).take 0 ∈ r.language ↔ r.nullable = true := r.nullable_iff.symm
    simp only [longest]
    cases hrest : longest (deriv c r) w with
    | some k =>
      obtain ⟨hk, hmem, hmost⟩ := ih.mp hrest
      simp only [Option.some.injEq]
      constructor
      · rintro rfl
        refine ⟨by simpa using hk, (htake k).mpr hmem, ?_⟩
        intro m hm hm'
        cases m with
        | zero => exact Nat.zero_le _
        | succ m => exact Nat.succ_le_succ (hmost m (by simpa using hm) ((htake m).mp hm'))
      · rintro ⟨hn, hn', hmost'⟩
        have hle := hmost' (k + 1) (by simpa using hk) ((htake k).mpr hmem)
        cases n with
        | zero => omega
        | succ n =>
          have := hmost n (by simpa using hn) ((htake n).mp hn')
          omega
    | none =>
      have hno : ∀ m, m ≤ w.length → w.take m ∉ (deriv c r).language := by
        -- a match of any length makes the matcher answer
        intro m hm hmem
        obtain ⟨k, hk⟩ := exists_longest hm hmem
        rw [ih.mpr hk] at hrest
        simp at hrest
      cases hr : r.nullable with
      | true =>
        simp only [if_true, Option.some.injEq]
        constructor
        · rintro rfl
          refine ⟨Nat.zero_le _, hnull.mpr hr, ?_⟩
          intro m hm hm'
          cases m with
          | zero => exact le_rfl
          | succ m => exact absurd ((htake m).mp hm') (hno m (by simpa using hm))
        · rintro ⟨hn, hn', _⟩
          cases n with
          | zero => rfl
          | succ n => exact absurd ((htake n).mp hn') (hno n (by simpa using hn))
      | false =>
        simp only [Bool.false_eq_true, if_false]
        refine iff_of_false (by simp) ?_
        rintro ⟨hn, hn', _⟩
        cases n with
        | zero =>
          rw [hnull, hr] at hn'
          simp at hn'
        | succ n => exact absurd ((htake n).mp hn') (hno n (by simpa using hn))

/-- The matcher finds nothing exactly when no beginning matches. -/
lemma longest_eq_none {r : Pattern α} {w : List α} : r.longest w = none ↔
    ∀ n, n ≤ w.length → w.take n ∉ r.language := by
  constructor
  · intro hnone n hn hmem
    obtain ⟨k, hk⟩ := exists_longest hn hmem
    have hsome := longest_eq_some.mpr hk
    rw [hnone] at hsome
    simp at hsome
  · intro hno
    cases hlong : r.longest w with
    | none => rfl
    | some n =>
      obtain ⟨hn, hmem, _⟩ := longest_eq_some.mp hlong
      exact absurd hmem (hno n hn)

/-- Behind a fixed beginning, the longest match goes on with the longest match of the rest. -/
lemma longest_seq_word {r s : Pattern α} {cs w : List α}
    (hword : ∀ x, x ∈ r.language ↔ x = cs) :
    (seq r s).longest (cs ++ w) = (s.longest w).map (· + cs.length) := by
  have hshort : ∀ n, n ≤ cs.length + w.length → ((cs ++ w).take n ∈ (seq r s).language ↔
      ∃ m, n = m + cs.length ∧ w.take m ∈ s.language) := by
    intro n hn
    constructor
    · rintro ⟨x, hx, y, hy, hxy⟩
      rw [(hword x).mp hx] at hxy
      have hlen := congrArg List.length hxy
      simp only [List.length_append, List.length_take] at hlen
      refine ⟨n - cs.length, by omega, ?_⟩
      rw [show n = cs.length + (n - cs.length) by omega, List.take_length_add_append,
        List.append_cancel_left_eq] at hxy
      rwa [← hxy]
    · rintro ⟨m, rfl, hm⟩
      refine ⟨cs, (hword cs).mpr rfl, w.take m, hm, ?_⟩
      rw [Nat.add_comm m, List.take_length_add_append]
  cases hs : s.longest w with
  | none =>
    rw [Option.map_none, longest_eq_none]
    intro n hn hcon
    rw [List.length_append] at hn
    obtain ⟨m, rfl, hm⟩ := (hshort n hn).mp hcon
    exact longest_eq_none.mp hs m (by omega) hm
  | some k =>
    obtain ⟨hk, hmemk, hmost⟩ := longest_eq_some.mp hs
    rw [Option.map_some, longest_eq_some, List.length_append]
    refine ⟨by omega, (hshort _ (by omega)).mpr ⟨k, rfl, hmemk⟩, ?_⟩
    intro n hn hcon
    obtain ⟨m, rfl, hm⟩ := (hshort n hn).mp hcon
    have := hmost m (by omega) hm
    omega

/-- Without the fixed beginning there is no match. -/
lemma longest_seq_word_eq_none {r s : Pattern α} {cs w : List α}
    (hword : ∀ x, x ∈ r.language ↔ x = cs) (h : ¬ cs <+: w) :
    (seq r s).longest w = none := by
  rw [longest_eq_none]
  rintro n _ ⟨x, hx, y, _, hxy⟩
  rw [(hword x).mp hx] at hxy
  have hpre : cs <+: w.take n := ⟨y, hxy⟩
  exact h (hpre.trans (List.take_prefix n w))

/-- One time or more matches as far as any number of times, but for the empty match. -/
lemma longest_plus_getD {r : Pattern α} {w : List α} :
    ((plus r).longest w).getD 0 = ((star r).longest w).getD 0 := by
  have hplus : ∀ x : List α, x ≠ [] → (x ∈ (plus r).language ↔ x ∈ (star r).language) := by
    intro x hne
    constructor
    · intro hx
      have hle : (plus r).language ≤ (star r).language := mul_kstar_le_kstar
      exact hle hx
    · intro hx
      have hx' : x ∈ 1 + r.language * r.language∗ := by
        rw [Language.one_add_self_mul_kstar_eq_kstar]
        exact hx
      rcases (Language.mem_add _ _ _).mp hx' with hone | hmul
      · exact absurd ((Language.mem_one x).mp hone) hne
      · exact hmul
  have htake : ∀ n, n ≤ w.length → n ≠ 0 → w.take n ≠ [] := by
    intro n hn hne hcon
    have hlen := congrArg List.length hcon
    rw [List.length_take, List.length_nil] at hlen
    omega
  have hnil : w.take 0 ∈ (star r).language := Language.nil_mem_kstar _
  cases hstar : (star r).longest w with
  | none => exact absurd hnil (longest_eq_none.mp hstar 0 (Nat.zero_le _))
  | some k =>
    obtain ⟨hk, hmem, hmost⟩ := longest_eq_some.mp hstar
    cases hp : (plus r).longest w with
    | none =>
      rcases Nat.eq_zero_or_pos k with rfl | hpos
      · rfl
      · have hmem' := (hplus _ (htake k hk (by omega))).mpr hmem
        exact absurd hmem' (longest_eq_none.mp hp k hk)
    | some n =>
      obtain ⟨hn, hmemn, hmostn⟩ := longest_eq_some.mp hp
      have hle : n ≤ k := by
        rcases Nat.eq_zero_or_pos n with rfl | hpos
        · exact Nat.zero_le _
        · exact hmost n hn ((hplus _ (htake n hn (by omega))).mp hmemn)
      have hge : k ≤ n := by
        rcases Nat.eq_zero_or_pos k with rfl | hpos
        · exact Nat.zero_le _
        · exact hmostn k hk ((hplus _ (htake k hk (by omega))).mpr hmem)
      exact Nat.le_antisymm hle hge

end Pattern

end MarkdownCore
