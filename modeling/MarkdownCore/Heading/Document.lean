import Mathlib.Data.List.Sort
import MarkdownCore.Heading.Finish

/-!
# The names of a document

A document parsed whole closes its headings, parses their inlines and names them once, against the
anchors its roster holds then.
-/

namespace MarkdownCore

open Naming

/-- The headings of a document: those that closed at `starts`, each parsed to its projection. -/
def documentHeadings (starts : List ℕ) (project : ℕ → Projection) : HeadingState :=
  (starts.foldl HeadingState.closeHeading {}).headingsPrepare (fun _ => true) project

/-- Where the headings start, in source order. -/
def sourceOrder (starts : List ℕ) : List ℕ := starts.mergeSort fun a b => a ≤ b

namespace HeadingState

/-- The entry of a heading that closed. -/
def closedEntry (start : ℕ) : Heading := { toProjection := .empty, start }

/-- The entry of a heading once its inlines are parsed. -/
def parsedEntry (project : ℕ → Projection) (start : ℕ) : Heading :=
  { toProjection := project start, start, parsed := true }

lemma foldl_closeHeading (starts : List ℕ) (state : HeadingState)
    (h : state.headings.length = state.count) :
    starts.foldl closeHeading state =
      { state with
        headings := state.headings ++ starts.map closedEntry
        count := state.count + starts.length } := by
  induction starts generalizing state with
  | nil => simp
  | cons start starts ih =>
    have hclose : state.closeHeading start =
        { state with
          headings := state.headings ++ [closedEntry start], count := state.count + 1 } := by
      simp [closeHeading, closedEntry, sync, ← h]
    rw [List.foldl_cons, ih _ (by simp [hclose, h]), hclose]
    simp only [List.append_assoc, List.map_cons, List.length_cons, List.cons_append,
      List.nil_append]
    congr 1
    omega

/-- Headings that just closed are parsed in source order. -/
lemma map_mergeSort_closed (starts : List ℕ) (project : ℕ → Projection) :
    ((starts.map closedEntry).mergeSort fun a b => a.start ≤ b.start).map
      (fun heading => if heading.parsed || !true then heading else
        { toProjection := project heading.start, start := heading.start, parsed := true }) =
      (sourceOrder starts).map (parsedEntry project) := by
  rw [sourceOrder, ← List.map_mergeSort (r := fun a b : ℕ => decide (a ≤ b))
    (s := fun a b : Heading => decide (a.start ≤ b.start)) (fun a _ b _ => rfl), List.map_map]
  rfl

lemma documentHeadings_eq (starts : List ℕ) (project : ℕ → Projection) :
    documentHeadings starts project =
      { count := starts.length, parsed := starts.length,
        headings := (sourceOrder starts).map (parsedEntry project) } := by
  rw [documentHeadings, foldl_closeHeading _ _ rfl]
  have hall : ((sourceOrder starts).map (parsedEntry project)).takeWhile (·.parsed) =
      (sourceOrder starts).map (parsedEntry project) := by
    rw [List.takeWhile_eq_self_iff]
    intro heading hmem
    obtain ⟨start, -, rfl⟩ := List.mem_map.mp hmem
    rfl
  have htake : (starts.map closedEntry).take starts.length = starts.map closedEntry :=
    List.take_of_length_le (by simp)
  simp only [headingsPrepare, sync, List.nil_append, Nat.zero_add, List.drop_zero, List.take_zero,
    htake, map_mergeSort_closed, hall]
  simp [sourceOrder]

end HeadingState

open HeadingState

/-- The document shows the names of one greedy pass over its anchors and its headings. -/
lemma documentHeadings_greedy (roster : Roster) (starts : List ℕ) (project : ℕ → Projection) :
    let state := (documentHeadings starts project).headingsFinish roster none
    state.bases = (sourceOrder starts).map (fun start =>
        if (project start).authored then none else some (project start).base) ∧
      state.shown.length = state.bases.length ∧
      IsGreedy anchors (· ∈ roster.reserved) (at? state.bases) (at? state.shown) := by
  have hlen : (sourceOrder starts).length = starts.length := by simp [sourceOrder]
  rw [documentHeadings_eq]
  set read : HeadingState :=
    { count := starts.length, parsed := starts.length,
      headings := (sourceOrder starts).map (parsedEntry project) } with hread
  have hsync : read.sync = read := by simp [hread, sync, List.take_of_length_le, hlen]
  have hsteady : ∀ (i : ℕ) (heading : Heading), read.sync.headings[i]? = some heading →
      read.sync.Steady i heading := by
    intro i heading hi
    rw [hsync] at hi ⊢
    obtain ⟨start, -, rfl⟩ := List.mem_map.mp (List.mem_of_getElem? hi)
    exact ⟨.of_unnamed rfl rfl rfl, fun h => by simp [parsedEntry] at h, rfl⟩
  obtain ⟨-, -, hcount, hlength, -, hsame, hgreedy⟩ :=
    headingsFinish_flush read roster (by simp [hread, hlen]) hsteady
  have hlength' : read.headings.length = read.count := by simp [hread, hlen]
  have hbases : (read.headingsFinish roster none).bases = read.bases :=
    bases_of_same hcount (hlength.trans hlength'.symm) (hsync ▸ hsame)
  refine ⟨?_, by simp [shown, bases], hgreedy⟩
  rw [hbases]
  simp only [bases, hread, List.take_of_length_le (List.length_map _ ▸ hlen.le), List.map_map]
  rfl

/-- Every heading that authors no anchor shows the first of `base`, `base-1`, `base-2` and on that
is neither an anchor that stands in the document nor a name of a heading before it; so no two
headings show one name, and none shows an anchor's. -/
theorem headingsFinish_names (roster : Roster) (starts : List ℕ) (project : ℕ → Projection) :
    let shown := ((documentHeadings starts project).headingsFinish roster none).shown
    shown.length = starts.length ∧
      (∀ (i start : ℕ), (sourceOrder starts)[i]? = some start →
        ((project start).authored = true → shown[i]? = some none) ∧
        ((project start).authored = false → ∃ k,
          shown[i]? = some (some (anchorName (project start).base k)) ∧
          anchorName (project start).base k ∉ roster.reserved ∧
          (∀ j < i, shown[j]? ≠ some (some (anchorName (project start).base k))) ∧
          ∀ l < k, anchorName (project start).base l ∈ roster.reserved ∨
            ∃ j < i, shown[j]? = some (some (anchorName (project start).base l)))) ∧
      (∀ (i j : ℕ) (n : Name), shown[i]? = some (some n) → shown[j]? = some (some n) → i = j) ∧
      ∀ (i : ℕ) (n : Name), shown[i]? = some (some n) → n ∉ roster.reserved := by
  intro shown
  obtain ⟨hbases, hlength, hgreedy⟩ := documentHeadings_greedy roster starts project
  have hjoin : ∀ (i : ℕ) (n : Name), shown[i]? = some (some n) ↔ at? shown i = some n := fun i n => by
    simp [at?, Option.join_eq_some_iff]
  simp only [hjoin, ne_eq]
  refine ⟨?_, fun i start hi => ⟨fun hauth => ?_, fun hauth => ?_⟩,
    fun i j n hi hj => hgreedy.injective hi hj, fun i n hi => hgreedy.not_reserved hi⟩
  · rw [hlength, hbases]
    simp [sourceOrder]
  · have hnone := hgreedy.eq_none (i := i) (by simp [hbases, at?, hi, hauth])
    have hlt : i < shown.length := by
      rw [hlength, hbases, List.length_map]
      exact (List.getElem?_eq_some_iff.mp hi).1
    rw [show at? _ i = shown[i]?.join from rfl, List.getElem?_eq_getElem hlt] at hnone
    rw [List.getElem?_eq_getElem hlt, show shown[i] = none by simpa using hnone]
  · obtain ⟨n, hn, k, rfl, hfree, hbelow⟩ :=
      (hgreedy i).2 (project start).base (by simp [hbases, at?, hi, hauth])
    simp only [Taken, not_or, not_exists, not_and, anchors_nth] at hfree hbelow
    exact ⟨k, hn, hfree.1, hfree.2, hbelow⟩

end MarkdownCore
