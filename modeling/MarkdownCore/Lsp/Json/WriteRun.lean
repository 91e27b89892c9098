import Mathlib.Data.List.Forall2
import MarkdownCore.Lsp.Json.Spell

/-!
# What is walked and written

A tree that holds a meaning is walked member by member, in order, at every container of it, and is
written as the meaning is spelled. So what was read and is written means what it meant.
-/

namespace MarkdownCore.Json

/-! ### A tree that holds a meaning -/

/-- A tree with values in its row from an index on, and bytes among its bytes from a start on. -/
def Tree.Spans (tree : Tree) (index start : ℕ) (vs : List Value) (bs : List UInt8) : Prop :=
  (∃ before after, tree.values = before ++ (vs ++ after) ∧ before.length = index) ∧
    ∃ before after, tree.bytes = before ++ (bs ++ after) ∧ before.length = start

/-- A tree with a meaning laid out in it. -/
def Tree.Holds (tree : Tree) (index start : ℕ) (v : Datum) : Prop :=
  tree.Spans index start (v.values index start) v.content

lemma Datum.holds (v : Datum) : v.tree.Holds 0 0 v :=
  ⟨⟨[], [], (List.append_nil _).symm, rfl⟩, ⟨[], [], (List.append_nil _).symm, rfl⟩⟩

namespace Tree.Spans

variable {tree : Tree} {index start : ℕ} {vs vs' : List Value} {bs bs' : List UInt8}

lemma left (h : tree.Spans index start (vs ++ vs') (bs ++ bs')) : tree.Spans index start vs bs := by
  obtain ⟨⟨before, after, hvalues, hindex⟩, ⟨before', after', hbytes, hstart⟩⟩ := h
  rw [List.append_assoc] at hvalues hbytes
  exact ⟨⟨before, _, hvalues, hindex⟩, ⟨before', _, hbytes, hstart⟩⟩

lemma right (h : tree.Spans index start (vs ++ vs') (bs ++ bs')) :
    tree.Spans (index + vs.length) (start + bs.length) vs' bs' := by
  obtain ⟨⟨before, after, hvalues, hindex⟩, ⟨before', after', hbytes, hstart⟩⟩ := h
  rw [List.append_assoc, ← List.append_assoc before] at hvalues
  rw [List.append_assoc, ← List.append_assoc before'] at hbytes
  refine ⟨⟨_, after, hvalues, ?_⟩, ⟨_, after', hbytes, ?_⟩⟩
  · rw [List.length_append, hindex]
  · rw [List.length_append, hstart]

/-- The values after the first, which has no bytes of its own. -/
lemma tail {value : Value} (h : tree.Spans index start (value :: vs) bs) :
    tree.Spans (index + 1) start vs bs := by
  have h' : tree.Spans index start ([value] ++ vs) ([] ++ bs) := h
  exact h'.right

lemma get {value : Value} (h : tree.Spans index start (value :: vs) bs) :
    tree.values[index]? = some value := by
  obtain ⟨⟨before, after, hvalues, rfl⟩, -⟩ := h
  rw [hvalues, List.getElem?_append_right (Nat.le_refl _), Nat.sub_self]
  rfl

lemma bytes (h : tree.Spans index start vs bs) : (tree.bytes.drop start).take bs.length = bs := by
  obtain ⟨-, ⟨before, after, hbytes, rfl⟩⟩ := h
  rw [hbytes, List.drop_left, List.take_left]

lemma length_le (h : tree.Spans index start vs bs) : vs.length ≤ tree.values.length := by
  obtain ⟨⟨before, after, hvalues, -⟩, -⟩ := h
  rw [hvalues, List.length_append, List.length_append]
  omega

end Tree.Spans

/-- The kind of a meaning. -/
def Datum.kind : Datum → Kind
  | .null => .null
  | .no => .no
  | .yes => .yes
  | .number _ => .number
  | .string _ => .string
  | .array _ => .array
  | .object _ => .object

/-- A meaning's first value, with the index after its last. -/
lemma Datum.values_head (v : Datum) (index start : ℕ) : ∃ size more, v.values index start =
    ⟨v.kind, index + (v.values index start).length, start, size⟩ :: more := by
  cases v with
  | array items =>
    refine ⟨0, valuesItems items (index + 1) start, ?_⟩
    rw [Datum.values, List.length_cons, Nat.add_right_comm]
    rfl
  | object members =>
    refine ⟨0, valuesMembers members (index + 1) start, ?_⟩
    rw [Datum.values, List.length_cons, Nat.add_right_comm]
    rfl
  | _ => exact ⟨_, _, rfl⟩

lemma Tree.Holds.get {tree : Tree} {index start : ℕ} {v : Datum} (h : tree.Holds index start v) :
    ∃ size, tree.values[index]? =
      some ⟨v.kind, index + (v.values index start).length, start, size⟩ := by
  obtain ⟨size, more, hvalues⟩ := v.values_head index start
  have h' := h
  rw [Tree.Holds, hvalues] at h'
  exact ⟨size, h'.get⟩

lemma Tree.Holds.isKind {tree : Tree} {index start : ℕ} {v : Datum} (h : tree.Holds index start v)
    (kind : Kind) : isKind tree index kind = decide (v.kind = kind) := by
  obtain ⟨size, hget⟩ := h.get
  rw [Json.isKind, hget]
  rfl

/-! ### Walking a list -/

section

variable {ι : Type} {values : ι → ℕ → ℕ → List Value} {content : ι → List UInt8} {tree : Tree}
  {container : ℕ} {object : Bool} {c : Value}

/-- An item that a loop visits, of a list that so many values show. -/
def Visited (values : ι → ℕ → ℕ → List Value) (content : ι → List UInt8) (tree : Tree)
    (least size : ℕ) (x : ι) (i : ℕ) : Prop :=
  least ≤ i ∧ ∃ s, tree.Spans i s (values x i s) (content x) ∧ (values x i s).length ≤ size

/-- What a loop visits for a list: an index for each item, the least for the first alone. -/
structure Walk (values : ι → ℕ → ℕ → List Value) (content : ι → List UInt8) (tree : Tree)
    (least size : ℕ) (xs : List ι) (is : List ℕ) : Prop where
  each : List.Forall₂ (Visited values content tree least size) xs is
  first : ∀ {i rest}, is = i :: rest → i = least ∧ ∀ j ∈ rest, j ≠ least

lemma Walk.least_le {least size : ℕ} {xs : List ι} {is : List ℕ}
    (h : Walk values content tree least size xs is) : ∀ i ∈ is, least ≤ i := by
  have heach := h.each
  clear h
  induction heach with
  | nil => simp
  | cons hx h ih =>
    intro i hi
    rcases List.mem_cons.mp hi with rfl | hi
    · exact hx.1
    · exact ih i hi

/-- The value a loop goes on from has the index after its item's last. -/
def Ended (values : ι → ℕ → ℕ → List Value) (content : ι → List UInt8) (tree : Tree)
    (object : Bool) : Prop :=
  ∀ x i s, tree.Spans i s (values x i s) (content x) → 0 < (values x i s).length ∧
    ∃ value, tree.values[if object then i + 1 else i]? = some value ∧
      value.stop = i + (values x i s).length

lemma length_le_layout (hended : Ended values content tree object) {xs : List ι} {index start : ℕ}
    (h : tree.Spans index start (layout values content xs index start) (xs.flatMap content)) :
    xs.length ≤ (layout values content xs index start).length := by
  induction xs generalizing index start with
  | nil => exact Nat.le_refl _
  | cons x xs ih =>
    rw [layout, List.flatMap_cons] at h
    have hpos := (hended x index start h.left).1
    have hle := ih h.right
    rw [layout, List.length_append, List.length_cons]
    omega

lemma visits_layout (hended : Ended values content tree object)
    (hcontainer : tree.values[container]? = some c) {xs : List ι} {index start fuel : ℕ}
    (h : tree.Spans index start (layout values content xs index start) (xs.flatMap content))
    (hstop : c.stop = index + (layout values content xs index start).length)
    (hfuel : xs.length ≤ fuel) :
    Walk values content tree index (layout values content xs index start).length xs
      (visits tree container object fuel (if xs.length = 0 then none else some index)) := by
  induction xs generalizing index start fuel with
  | nil =>
    have hnone : visits tree container object fuel none = [] := by cases fuel <;> rfl
    rw [List.length_nil, if_pos rfl, hnone]
    exact ⟨List.Forall₂.nil, fun h => nomatch h⟩
  | cons x xs ih =>
    obtain ⟨fuel, rfl⟩ := Nat.exists_eq_succ_of_ne_zero
      (Nat.pos_iff_ne_zero.mp (Nat.lt_of_lt_of_le (Nat.succ_pos xs.length) hfuel))
    have hfuel : xs.length ≤ fuel := Nat.le_of_succ_le_succ hfuel
    rw [layout, List.flatMap_cons] at h
    rw [layout, List.length_append] at hstop
    obtain ⟨hpos, value, hvalue, hvalue'⟩ := hended x index start h.left
    have hle := length_le_layout hended h.right
    -- The next item's index, if there is one.
    have hnext : jsonNext tree container (if object then index + 1 else index) =
        if xs.length = 0 then none else some (index + (values x index start).length) := by
      rw [jsonNext, hvalue, hcontainer, Option.bind_some, Option.bind_some, hvalue', hstop]
      cases xs with
      | nil => exact if_neg (by simp [layout])
      | cons y ys =>
        rw [List.length_cons] at hle
        rw [if_pos (by omega)]
        rfl
    have hrest := ih h.right (by rw [hstop, Nat.add_assoc]) hfuel
    rw [List.length_cons, if_neg (Nat.succ_ne_zero _), visits, hnext, layout, List.length_append]
    constructor
    · constructor
      · exact ⟨Nat.le_refl _, start, h.left, Nat.le_add_right _ _⟩
      · refine hrest.each.imp ?_
        rintro y i ⟨hi, s, hspans, hsize⟩
        exact ⟨by omega, s, hspans, by omega⟩
    · intro i rest heq
      obtain ⟨rfl, rfl⟩ := List.cons.inj heq
      refine ⟨rfl, fun j hj => ?_⟩
      have hj := hrest.least_le j hj
      omega

/-- What a loop over a container visits: what the container lists, in order. -/
lemma members_container (hended : Ended values content tree object) {kind : Kind}
    (hobject : object = decide (kind = .object)) {xs : List ι} {index start : ℕ}
    (h : tree.Spans index start (containerValues values content kind xs index start)
      (xs.flatMap content)) :
    jsonFirst tree index = (if xs.length = 0 then none else some (index + 1)) ∧
      Walk values content tree (index + 1) (layout values content xs (index + 1) start).length xs
        (members tree index) := by
  have hget := h.get
  have hlayout : tree.Spans (index + 1) start (layout values content xs (index + 1) start)
      (xs.flatMap content) := h.tail
  have hle := length_le_layout hended hlayout
  have hfirst : jsonFirst tree index = if xs.length = 0 then none else some (index + 1) := by
    rw [jsonFirst, hget, Option.bind_some]
    cases xs with
    | nil => exact if_neg (by simp [layout])
    | cons x xs =>
      rw [List.length_cons] at hle
      rw [if_pos (by simp only; omega)]
      rfl
  refine ⟨hfirst, ?_⟩
  have hkind : isKind tree index .object = object := by
    rw [isKind, hget, hobject]
    rfl
  rw [members, hfirst, hkind]
  exact visits_layout hended hget hlayout rfl (Nat.le_trans hle hlayout.length_le)

end

lemma ended_items (tree : Tree) : Ended Datum.values Datum.content tree false := by
  intro v i s h
  obtain ⟨size, hget⟩ := Tree.Holds.get h
  obtain ⟨size', more, hvalues⟩ := v.values_head i s
  refine ⟨?_, _, hget, rfl⟩
  rw [hvalues]
  exact Nat.succ_pos _

/-- A member's name, and its value after it. -/
lemma Tree.Spans.member {tree : Tree} {member : List UInt8 × Datum} {i s : ℕ}
    (h : tree.Spans i s (memberValues Datum.values member i s)
      (memberContent Datum.content member)) :
    tree.Holds i s (.string member.1) ∧ tree.Holds (i + 1) (s + member.1.length) member.2 := by
  have h' : tree.Spans i s ([⟨.string, i + 1, s, member.1.length⟩] ++
      member.2.values (i + 1) (s + member.1.length)) (member.1 ++ member.2.content) := h
  exact ⟨h'.left, h'.right⟩

lemma ended_members (tree : Tree) :
    Ended (memberValues Datum.values) (memberContent Datum.content) tree true := by
  intro member i s h
  obtain ⟨size, hget⟩ := h.member.2.get
  refine ⟨Nat.succ_pos _, _, hget, ?_⟩
  rw [memberValues, List.length_cons]
  simp only
  omega

lemma members_array {tree : Tree} {index start : ℕ} {items : List Datum}
    (h : tree.Holds index start (.array items)) :
    jsonFirst tree index = (if items.length = 0 then none else some (index + 1)) ∧
      Walk Datum.values Datum.content tree (index + 1) (valuesItems items (index + 1) start).length
        items (members tree index) := by
  rw [Tree.Holds, values_array, Datum.content, contentItems_eq] at h
  rw [valuesItems_eq]
  exact members_container (ended_items tree) rfl h

lemma members_object {tree : Tree} {index start : ℕ} {ms : List (List UInt8 × Datum)}
    (h : tree.Holds index start (.object ms)) :
    jsonFirst tree index = (if ms.length = 0 then none else some (index + 1)) ∧
      Walk (memberValues Datum.values) (memberContent Datum.content) tree (index + 1)
        (valuesMembers ms (index + 1) start).length ms (members tree index) := by
  rw [Tree.Holds, values_object, Datum.content, contentMembers_eq] at h
  rw [valuesMembers_eq]
  exact members_container (ended_members tree) rfl h

/-! ### What is visited -/

lemma jsonIs_string {tree : Tree} {index start : ℕ} {name : List UInt8}
    (h : tree.Holds index start (.string name)) (key : List UInt8) :
    jsonIs tree index key = decide (name = key) := by
  have hkind := h.isKind .string
  have hbytes := Tree.Spans.bytes h
  have hget := Tree.Spans.get h
  have hname : jsonBytes tree index = name := by
    rw [jsonBytes, hget]
    exact hbytes
  rw [jsonIs, hkind, hname]
  exact Bool.true_and _

/-- The loops over a value of a tree visit its members, and no others, in order; the member of a key
is the first of that name. -/
def Tree.Visits (tree : Tree) (index : ℕ) : Datum → Prop
  | .array items =>
    List.Forall₂ (fun v i => ∃ s, tree.Holds i s v) items (members tree index)
  | .object ms =>
    List.Forall₂ (fun member i => (∃ s, tree.Holds i s (.string member.1)) ∧
      ∃ s, tree.Holds (i + 1) s member.2) ms (members tree index) ∧
    ∀ key, Option.Rel (fun member i => ∃ s, tree.Holds i s member.2)
      (ms.find? fun member => member.1 = key) (jsonMember tree index key)
  | _ => members tree index = []

lemma rel_map {α β : Type} {R S : α → β → Prop} {f : β → β} (hf : ∀ a b, R a b → S a (f b))
    {a : Option α} {b : Option β} (h : Option.Rel R a b) : Option.Rel S a (b.map f) := by
  cases h with
  | none => exact Option.Rel.none
  | some hab => exact Option.Rel.some (hf _ _ hab)

lemma rel_find {α β : Type} {R : α → β → Prop} {p : α → Bool} {q : β → Bool}
    (hpq : ∀ a b, R a b → p a = q b) {as : List α} {bs : List β} (h : List.Forall₂ R as bs) :
    Option.Rel R (as.find? p) (bs.find? q) := by
  induction h with
  | nil => exact Option.Rel.none
  | cons hab h ih =>
    rw [List.find?_cons, List.find?_cons, hpq _ _ hab]
    split
    · exact Option.Rel.some hab
    · exact ih

theorem Tree.Holds.visits {tree : Tree} {index start : ℕ} {v : Datum}
    (h : tree.Holds index start v) : tree.Visits index v := by
  -- A value with no members has no index past it to go on from.
  have hscalar : (v.values index start).length = 1 → members tree index = [] := by
    intro hlength
    obtain ⟨size, hget⟩ := h.get
    have hfirst : jsonFirst tree index = none := by
      rw [jsonFirst, hget, Option.bind_some, hlength]
      exact if_neg (Nat.lt_irrefl _)
    rw [members, hfirst]
    cases tree.values.length <;> rfl
  cases v with
  | array items =>
    refine (members_array h).2.each.imp ?_
    rintro v i ⟨-, s, hspans, -⟩
    exact ⟨s, hspans⟩
  | object ms =>
    have hmembers : List.Forall₂ (fun member i => (∃ s, tree.Holds i s (.string member.1)) ∧
        ∃ s, tree.Holds (i + 1) s member.2) ms (members tree index) := by
      refine (members_object h).2.each.imp ?_
      rintro member i ⟨-, s, hspans, -⟩
      exact ⟨⟨s, hspans.member.1⟩, ⟨_, hspans.member.2⟩⟩
    refine ⟨hmembers, fun key => ?_⟩
    have hobject : Json.isKind tree index .object = true := h.isKind .object
    rw [jsonMember, if_pos hobject]
    have hfind := rel_find (p := fun member => decide (member.1 = key))
      (q := fun name => jsonIs tree name key) (fun member i hmember => by
        obtain ⟨⟨s, hname⟩, -⟩ := hmember
        exact (jsonIs_string hname key).symm) hmembers
    exact rel_map (fun member i hmember => hmember.2) hfind
  | _ => exact hscalar rfl

/-! ### What is written -/

lemma commas_cons (u : List UInt8) (us : List (List UInt8)) :
    commas (u :: us) = u ++ us.flatMap fun v => 44 :: v := by
  induction us generalizing u with
  | nil => exact (List.append_nil u).symm
  | cons v us ih => rw [commas, ih, List.flatMap_cons, List.cons_append]

namespace Out

section

variable {storage : ℕ → Bool} (hstorage : ∀ n, storage n = true)

include hstorage

lemma put_eq (data bytes : List UInt8) : put storage ⟨data, false⟩ bytes = ⟨data ++ bytes, false⟩ := by
  rw [put]
  simp only [hstorage, Bool.not_true, Bool.or_false]
  rfl

lemma putRun_eq (run bytes data : List UInt8) :
    putRun storage run bytes ⟨data, false⟩ = ⟨data ++ run ++ escaped bytes, false⟩ := by
  induction bytes generalizing run data with
  | nil =>
    rw [putRun, put_eq hstorage]
    exact congrArg (Out.mk · false) (List.append_nil _).symm
  | cons b bytes ih =>
    have hcons : escaped (b :: bytes) =
        (if isPlain b then [b] else escape b) ++ escaped bytes := List.flatMap_cons
    rw [putRun, hcons]
    split
    · rw [ih]
      simp only [List.append_assoc]
    · rw [put_eq hstorage, put_eq hstorage, ih, List.append_nil]
      simp only [List.append_assoc]

lemma putString_eq (data bytes : List UInt8) :
    putString storage ⟨data, false⟩ bytes = ⟨data ++ quoted bytes, false⟩ := by
  rw [putString, put_eq hstorage, putRun_eq hstorage, put_eq hstorage]
  simp only [quoted, List.append_assoc, List.cons_append, List.nil_append]

/-- A loop that writes a list, with a comma before each but the first. -/
lemma foldl_commas {ι : Type} {R : ι → ℕ → Prop} {spell : ι → List UInt8} {first : ℕ}
    (write : ℕ → Out → Out) (hwrite : ∀ x i, R x i → ∀ data,
      write i ⟨data, false⟩ = ⟨data ++ spell x, false⟩)
    {xs : List ι} {is : List ℕ} (h : List.Forall₂ R xs is) (hfirst : ∀ i ∈ is, i ≠ first)
    (data : List UInt8) : is.foldl (fun out i =>
      write i (if some i = some first then out else out.put storage [44])) ⟨data, false⟩ =
        ⟨data ++ (xs.map spell).flatMap fun v => 44 :: v, false⟩ := by
  induction h generalizing data with
  | nil => exact congrArg (Out.mk · false) (List.append_nil _).symm
  | @cons x i xs is hx h ih =>
    have hne : ¬ some i = some first := fun heq =>
      hfirst i List.mem_cons_self (Option.some.inj heq)
    rw [List.foldl_cons, if_neg hne, put_eq hstorage, hwrite x i hx,
      ih fun j hj => hfirst j (List.mem_cons_of_mem _ hj)]
    simp only [List.map_cons, List.flatMap_cons, List.append_assoc, List.cons_append,
      List.nil_append]

/-- The loop over a container's members, from the first. -/
lemma foldl_members {ι : Type} {values : ι → ℕ → ℕ → List Value} {content : ι → List UInt8}
    {tree : Tree} {least size : ℕ} {next : Option ℕ} {xs : List ι} {is : List ℕ}
    (spell : ι → List UInt8) (write : ℕ → Out → Out)
    (hwrite : ∀ x i, Visited values content tree least size x i → ∀ data,
      write i ⟨data, false⟩ = ⟨data ++ spell x, false⟩)
    (hnext : next = if xs.length = 0 then none else some least)
    (h : Walk values content tree least size xs is) (data : List UInt8) : is.foldl (fun out i =>
      write i (if some i = next then out else out.put storage [44])) ⟨data, false⟩ =
        ⟨data ++ commas (xs.map spell), false⟩ := by
  obtain ⟨heach, hfirst⟩ := h
  cases heach with
  | nil => exact congrArg (Out.mk · false) (List.append_nil _).symm
  | @cons x i xs is hx h =>
    obtain ⟨rfl, hrest⟩ := hfirst rfl
    rw [List.length_cons, if_neg (Nat.succ_ne_zero _)] at hnext
    subst hnext
    rw [List.foldl_cons, if_pos rfl, hwrite x i hx, foldl_commas hstorage write hwrite h hrest,
      List.map_cons, commas_cons, List.append_assoc]

/-- A value is written as what it means is spelled. -/
theorem putValue_eq {tree : Tree} {fuel index start : ℕ} {v : Datum}
    (h : tree.Holds index start v) (hfuel : (v.values index start).length ≤ fuel)
    (data : List UInt8) : putValue storage tree fuel index ⟨data, false⟩ =
      ⟨data ++ v.spell, false⟩ := by
  induction fuel generalizing index start v data with
  | zero =>
    obtain ⟨size, more, hvalues⟩ := v.values_head index start
    rw [hvalues] at hfuel
    cases hfuel
  | succ fuel ih =>
    obtain ⟨size, hget⟩ := h.get
    rw [putValue, hget]
    cases v with
    | null => exact put_eq hstorage _ _
    | no => exact put_eq hstorage _ _
    | yes => exact put_eq hstorage _ _
    | number spelling =>
      have hget := Tree.Spans.get h
      have hbytes : jsonBytes tree index = spelling := by
        rw [jsonBytes, hget]
        exact Tree.Spans.bytes h
      simp only [Datum.kind, hbytes]
      exact put_eq hstorage _ _
    | string bytes =>
      have hget := Tree.Spans.get h
      have hbytes : jsonBytes tree index = bytes := by
        rw [jsonBytes, hget]
        exact Tree.Spans.bytes h
      simp only [Datum.kind, hbytes]
      exact putString_eq hstorage _ _
    | array items =>
      obtain ⟨hfirst, hwalk⟩ := members_array h
      rw [Datum.values, List.length_cons] at hfuel
      have hitems := foldl_members hstorage Datum.spell (putValue storage tree fuel)
        (fun item i hitem data => by
          obtain ⟨-, s, hspans, hsize⟩ := hitem
          exact ih hspans (Nat.le_trans hsize (Nat.le_of_succ_le_succ hfuel)) data)
        hfirst hwalk (data ++ [91])
      simp only [Datum.kind]
      rw [put_eq hstorage, hitems, put_eq hstorage, Datum.spell, spellItems_eq]
      simp only [List.append_assoc, List.cons_append, List.nil_append]
    | object ms =>
      obtain ⟨hfirst, hwalk⟩ := members_object h
      rw [Datum.values, List.length_cons] at hfuel
      have hmembers := foldl_members hstorage spellMember
        (fun i out => putValue storage tree fuel (i + 1)
          ((putValue storage tree fuel i out).put storage [58]))
        (fun member i hmember data => by
          obtain ⟨-, s, hspans, hsize⟩ := hmember
          have hsize : (memberValues Datum.values member i s).length ≤ fuel :=
            Nat.le_trans hsize (Nat.le_of_succ_le_succ hfuel)
          rw [memberValues, List.length_cons] at hsize
          obtain ⟨hname, hvalue⟩ := hspans.member
          have hname := ih hname (Nat.le_trans (Nat.succ_le_succ (Nat.zero_le _)) hsize) data
          simp only [hname, put_eq hstorage]
          rw [ih hvalue (Nat.le_trans (Nat.le_succ _) hsize), spellMember]
          simp only [Datum.spell, List.append_assoc, List.cons_append, List.nil_append])
        hfirst hwalk (data ++ [123])
      simp only [Datum.kind]
      rw [put_eq hstorage, hmembers, put_eq hstorage, Datum.spell, spellMembers_eq]
      simp only [List.append_assoc, List.cons_append, List.nil_append]

end

end Out

lemma jsonOut_eq {storage : ℕ → Bool} (hstorage : ∀ n, storage n = true) (v : Datum) :
    jsonOut storage v.tree = ⟨v.spell, false⟩ :=
  Out.putValue_eq hstorage v.holds v.holds.length_le []

/-- A text is read where it is one of the grammar. What was read is written as a text that reads as
the same tree, and a loop over a container of the tree visits the members the text has, in order. -/
theorem read_written (storage : ℕ → Bool) (t : List UInt8) :
    ((∃ tree, jsonRead (fun _ => true) t = .ok tree) ↔ ∃ v, IsText t v) ∧
      match jsonRead storage t with
      | .ok tree => ∃ v, IsText t v ∧ tree = v.tree ∧ tree.Holds 0 0 v ∧
        (jsonOut (fun _ => true) tree).failed = false ∧
        jsonRead (fun _ => true) (jsonOut (fun _ => true) tree).data = .ok tree ∧
        ∀ index start v, tree.Holds index start v → tree.Visits index v
      | .error _ => True := by
  constructor
  · constructor
    · rintro ⟨tree, h⟩
      obtain ⟨v, hv, -⟩ := jsonRead_sound h
      exact ⟨v, hv⟩
    · rintro ⟨v, hv⟩
      exact ⟨v.tree, jsonRead_complete (fun _ => rfl) hv⟩
  · cases hread : jsonRead storage t with
    | error status => trivial
    | ok tree =>
      obtain ⟨v, hv, rfl⟩ := jsonRead_sound hread
      refine ⟨v, hv, rfl, v.holds, ?_, ?_, fun index start v h => h.visits⟩
      · rw [jsonOut_eq fun _ => rfl]
      · rw [jsonOut_eq fun _ => rfl]
        exact jsonRead_complete (fun _ => rfl) hv.spelled

end MarkdownCore.Json
