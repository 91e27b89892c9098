import MarkdownCore.Citation.Braces

/-!
# The keys the brace index finds

The pass reads braces and other bytes. It gives an end to a brace when what follows it is a body
and a closing brace: bytes without whitespace and keys in braces of their own, at least one of them
(`prepareCitationBraces_spec`). The cursor comes to the same closing brace where the braces outside
the spans it skips nest (`bracedKeyEnd_eq_iff`).
-/

namespace MarkdownCore.Citation

open Inline

/-- What a key holds: bytes without whitespace, and keys in braces that hold something. -/
inductive Body : List Token → Prop
  | nil : Body []
  | bytes {rest : List Token} (hrest : Body rest) : Body (.bytes false :: rest)
  | nest {start at' : ℕ} {inner rest : List Token} (hinner : Body inner) (hne : inner ≠ [])
      (hrest : Body rest) : Body (.opening start :: (inner ++ .closing at' :: rest))

/-! ### Braces that nest -/

/-- Tokens whose braces nest, and whether they are a body. -/
inductive Balanced : List Token → Bool → Prop
  | nil : Balanced [] true
  | bytes {rest : List Token} {ok : Bool} (blank : Bool) (hrest : Balanced rest ok) :
      Balanced (.bytes blank :: rest) (!blank && ok)
  | nest {start at' : ℕ} {inner rest : List Token} {ok ok' : Bool} (hinner : Balanced inner ok)
      (hrest : Balanced rest ok') :
      Balanced (.opening start :: (inner ++ .closing at' :: rest)) ((ok && !inner.isEmpty) && ok')

/-- Tokens that close no brace opened before them. -/
inductive Unclosed : List Token → Prop
  | nil : Unclosed []
  | bytes {rest : List Token} (blank : Bool) (hrest : Unclosed rest) :
      Unclosed (.bytes blank :: rest)
  | opening {rest : List Token} (start : ℕ) (hrest : Unclosed rest) :
      Unclosed (.opening start :: rest)
  | nest {start at' : ℕ} {inner rest : List Token} {ok : Bool} (hinner : Balanced inner ok)
      (hrest : Unclosed rest) : Unclosed (.opening start :: (inner ++ .closing at' :: rest))

variable {toks held rest before after : List Token} {ok : Bool} {at' start : ℕ}

lemma Balanced.body (h : Balanced toks ok) (hok : ok = true) : Body toks := by
  induction h with
  | nil => exact .nil
  | bytes blank hrest ih =>
    cases blank with
    | false => exact .bytes (ih hok)
    | true => cases hok
  | nest hinner hrest ih ih' =>
    obtain ⟨hinner', hok'⟩ := Bool.and_eq_true_iff.mp hok
    obtain ⟨hok'', hne⟩ := Bool.and_eq_true_iff.mp hinner'
    refine .nest (ih hok'') ?_ (ih' hok')
    rintro rfl
    cases hne

variable {index : Index} {brace : Brace} {i k : ℕ} {entries : List Brace} {stack : List ℕ}

/-- The braces that are open, the innermost first. -/
inductive Open (entries : List Brace) : Option ℕ → List ℕ → Prop
  | nil : Open entries none []
  | cons {i : ℕ} {brace : Brace} {stack : List ℕ} (hget : entries[i]? = some brace)
      (hlt : ∀ j ∈ stack, j < i) (hrest : Open entries brace.previous stack) :
      Open entries (some i) (i :: stack)

lemma Open.lt_length {top : Option ℕ} (h : Open entries top stack) (hk : k ∈ stack) :
    k < entries.length := by
  induction h with
  | nil => cases hk
  | cons hget hlt hrest ih =>
    rcases List.mem_cons.mp hk with rfl | hk
    · exact (List.getElem?_eq_some_iff.mp hget).1
    · exact ih hk

/-- It is the same braces when each is in the same one. -/
lemma Open.congr {top : Option ℕ} {entries' : List Brace} (h : Open entries top stack)
    (hsame : ∀ k ∈ stack, ∀ brace, entries[k]? = some brace →
      ∃ brace', entries'[k]? = some brace' ∧ brace'.previous = brace.previous) :
    Open entries' top stack := by
  induction h with
  | nil => exact .nil
  | @cons i brace stack hget hlt hrest ih =>
    obtain ⟨brace', hget', hprevious⟩ := hsame i List.mem_cons_self brace hget
    refine .cons hget' hlt ?_
    rw [hprevious]
    exact ih fun k hk => hsame k (List.mem_cons_of_mem _ hk)

@[simp] lemma modifyTop_top (f : Brace → Brace) : (index.modifyTop f).top = index.top := by
  rw [Index.modifyTop]
  split <;> rfl

@[simp] lemma modifyTop_getElem? (f : Brace → Brace) (k : ℕ) :
    (index.modifyTop f).entries[k]? =
      index.entries[k]?.map fun brace => if index.top = some k then f brace else brace := by
  rw [Index.modifyTop]
  cases htop : index.top with
  | none => simp
  | some top => simp [List.getElem?_modify]

@[simp] lemma modifyTop_length (f : Brace → Brace) :
    (index.modifyTop f).entries.length = index.entries.length := by
  rw [Index.modifyTop]
  split
  · rfl
  · exact List.length_modify _ _ _

/-- A closing brace ends the brace that is open and, as a part of its content, reaches the one
around it. -/
lemma read_closing_getElem? (htop : index.top = some i) (hget : index.entries[i]? = some brace)
    (at' k : ℕ) :
    (index.read (.closing at')).entries[k]? = index.entries[k]?.map fun brace' =>
      let brace' := if i = k then
        { brace' with stop := if brace.valid && brace.content then at' + 1 else 0 } else brace'
      if brace.previous = some k then
        { brace' with
          valid := brace'.valid && (brace.valid && brace.content), content := true }
      else brace' := by
  rw [Index.read, htop]
  dsimp only
  rw [List.getD_eq_getElem?_getD, hget, modifyTop_getElem?]
  dsimp only
  rw [List.getElem?_modify, Option.map_eq_map, Option.map_map]
  rfl

lemma read_closing_top (htop : index.top = some i) (hget : index.entries[i]? = some brace)
    (at' : ℕ) : (index.read (.closing at')).top = brace.previous := by
  rw [Index.read, htop]
  dsimp only
  rw [modifyTop_top, List.getD_eq_getElem?_getD, hget]
  rfl

lemma read_length_le (index : Index) (tok : Token) :
    index.entries.length ≤ (index.read tok).entries.length := by
  cases tok with
  | bytes blank => exact Nat.le_of_eq (modifyTop_length _).symm
  | opening start =>
    rw [Index.read, List.length_append]
    exact Nat.le_add_right _ _
  | closing at' =>
    rw [Index.read]
    split
    · exact Nat.le_refl _
    · rw [modifyTop_length, List.length_modify]

lemma read_opening_getElem? (start : ℕ) (hk : k < index.entries.length) :
    (index.read (.opening start)).entries[k]? = index.entries[k]? :=
  List.getElem?_append_left hk

/-- From one index to a later one, with the same brace open: the brace's entry has become another,
and the entries before it have not changed. -/
structure Passes (index : Index) (i : ℕ) (brace : Brace) (index' : Index) : Prop where
  top_eq : index'.top = some i
  entry : index'.entries[i]? = some brace
  others : ∀ k < index.entries.length, k ≠ i → index'.entries[k]? = index.entries[k]?
  length_le : index.entries.length ≤ index'.entries.length

lemma Passes.trans {index' index'' : Index} {brace' : Brace} (h : Passes index i brace index')
    (h' : Passes index' i brace' index'') : Passes index i brace' index'' := by
  refine ⟨h'.top_eq, h'.entry, fun k hk hki => ?_, h.length_le.trans h'.length_le⟩
  rw [h'.others k (hk.trans_le h.length_le) hki, h.others k hk hki]

/-- What tokens whose braces nest do to the brace that is open. -/
def Brace.pass (brace : Brace) (toks : List Token) (ok : Bool) : Brace :=
  { brace with valid := brace.valid && ok, content := brace.content || !toks.isEmpty }

lemma passes_bytes (htop : index.top = some i) (hget : index.entries[i]? = some brace)
    (blank : Bool) :
    Passes index i (brace.pass [.bytes blank] (!blank)) (index.read (.bytes blank)) := by
  constructor
  · exact (modifyTop_top _).trans htop
  · rw [Index.read, modifyTop_getElem?, hget, Option.map_some, if_pos htop]
    simp [Brace.pass]
  · intro k hk hki
    rw [Index.read, modifyTop_getElem?, htop]
    have hne : ¬ some i = some k := fun h => hki (Option.some.inj h).symm
    simp [hne]
  · exact read_length_le _ _

/-- A key in braces, read to its closing brace, is a part of the content of the brace around it. -/
lemma passes_nest (htop : index.top = some i) (hget : index.entries[i]? = some brace)
    {inner : List Token} (start at' : ℕ)
    (hinner : ∀ {index : Index} {i : ℕ} {brace : Brace}, index.top = some i →
      index.entries[i]? = some brace →
        Passes index i (brace.pass inner ok) (inner.foldl Index.read index)) :
    Passes index i (brace.pass [.opening start] (ok && !inner.isEmpty))
      ((inner.foldl Index.read (index.read (.opening start))).read (.closing at')) := by
  obtain ⟨hi, -⟩ := List.getElem?_eq_some_iff.mp hget
  have hnew : (index.read (.opening start)).entries[index.entries.length]? =
      some { start, previous := some i } := by
    rw [Index.read, htop]
    simp
  have hpass := @hinner (index.read (.opening start)) _ _ rfl hnew
  have hlength : (index.read (.opening start)).entries.length = index.entries.length + 1 := by
    simp [Index.read]
  have hclosing := read_closing_getElem? hpass.top_eq hpass.entry at'
  have hold : ∀ k < index.entries.length,
      (inner.foldl Index.read (index.read (.opening start))).entries[k]? =
        index.entries[k]? := by
    intro k hk
    rw [hpass.others k (by omega) (by omega), read_opening_getElem? start hk]
  constructor
  · exact read_closing_top hpass.top_eq hpass.entry at'
  · rw [hclosing i, hold i hi, hget]
    have hne : index.entries.length ≠ i := by omega
    simp [Brace.pass, hne]
  · intro k hk hki
    rw [hclosing k, hold k hk]
    have hne : index.entries.length ≠ k := by omega
    have hne' : ¬ i = k := fun h => hki h.symm
    simp [Brace.pass, hne, hne']
  · have hle := read_length_le (inner.foldl Index.read (index.read (.opening start)))
      (.closing at')
    have := hpass.length_le
    omega

/-- Tokens whose braces nest leave the brace before them open. -/
lemma Balanced.passes (h : Balanced toks ok) (htop : index.top = some i)
    (hget : index.entries[i]? = some brace) :
    Passes index i (brace.pass toks ok) (toks.foldl Index.read index) := by
  induction h generalizing index i brace with
  | nil =>
    refine ⟨htop, ?_, fun k hk hki => rfl, Nat.le_refl _⟩
    simp [hget, Brace.pass]
  | bytes blank hrest ih =>
    have hbytes := passes_bytes htop hget blank
    have hpass := hbytes.trans (ih hbytes.top_eq hbytes.entry)
    simpa [Brace.pass, Bool.and_assoc] using hpass
  | @nest start at' inner rest ok ok' hinner hrest ih ih' =>
    have hnest := passes_nest htop hget start at' ih
    have hpass := hnest.trans (ih' hnest.top_eq hnest.entry)
    simpa [Brace.pass, Bool.and_assoc] using hpass

/-! ### Braces that are not open -/

lemma Open.mem {top : Option ℕ} (h : Open entries top stack) (htop : top = some k) :
    k ∈ stack := by
  cases h with
  | nil => cases htop
  | cons hget hlt hrest =>
    cases htop
    exact List.mem_cons_self

lemma Open.read_bytes (h : Open index.entries index.top stack) (blank : Bool) :
    Open (index.read (.bytes blank)).entries (index.read (.bytes blank)).top stack := by
  rw [Index.read, modifyTop_top]
  refine h.congr fun k hk brace hget => ?_
  rw [modifyTop_getElem?, hget, Option.map_some]
  refine ⟨_, rfl, ?_⟩
  split <;> rfl

/-- The entry of a brace when it is opened. -/
lemma read_opening_new (index : Index) (start : ℕ) :
    (index.read (.opening start)).entries[index.entries.length]? =
      some { start, previous := index.top } := by
  simp [Index.read]

lemma Open.read_opening (h : Open index.entries index.top stack) (start : ℕ) :
    Open (index.read (.opening start)).entries (index.read (.opening start)).top
      (index.entries.length :: stack) := by
  refine .cons (read_opening_new index start) (fun j hj => h.lt_length hj) ?_
  refine h.congr fun k hk brace hget => ⟨brace, ?_, rfl⟩
  rw [read_opening_getElem? start (h.lt_length hk), hget]

/-- The entries of braces that are closed stay as they are. -/
lemma Open.read (h : Open index.entries index.top stack) (tok : Token) :
    ∃ stack', Open (index.read tok).entries (index.read tok).top stack' ∧
      ∀ k < index.entries.length, k ∉ stack →
        k ∉ stack' ∧ (index.read tok).entries[k]? = index.entries[k]? := by
  cases tok with
  | bytes blank =>
    refine ⟨stack, h.read_bytes blank, fun k hk hout => ⟨hout, ?_⟩⟩
    have hne : index.top ≠ some k := fun htop => hout (h.mem htop)
    rw [Index.read, modifyTop_getElem?]
    simp [hne]
  | opening start =>
    refine ⟨index.entries.length :: stack, h.read_opening start, fun k hk hout => ⟨?_, ?_⟩⟩
    · intro hk'
      rcases List.mem_cons.mp hk' with rfl | hk'
      · exact absurd hk (Nat.lt_irrefl _)
      · exact hout hk'
    · exact read_opening_getElem? start hk
  | closing at' =>
    cases htop : index.top with
    | none =>
      have hsame : index.read (.closing at') = index := by
        rw [Index.read, htop]
      rw [hsame]
      exact ⟨stack, h, fun k hk hout => ⟨hout, rfl⟩⟩
    | some i =>
      rw [htop] at h
      cases h with
      | @cons _ brace stack hget hlt hrest =>
        refine ⟨stack, ?_, fun k hk hout => ⟨?_, ?_⟩⟩
        · rw [read_closing_top htop hget]
          refine hrest.congr fun k hk brace' hget' => ?_
          rw [read_closing_getElem? htop hget, hget', Option.map_some]
          refine ⟨_, rfl, ?_⟩
          dsimp only
          split <;> split <;> rfl
        · exact fun hk' => hout (List.mem_cons_of_mem _ hk')
        · have hne : ¬ i = k := by
            rintro rfl
            exact hout List.mem_cons_self
          have hprevious : brace.previous ≠ some k := fun hprevious =>
            hout (List.mem_cons_of_mem _ (hrest.mem hprevious))
          rw [read_closing_getElem? htop hget]
          simp [hne, hprevious]

lemma Open.foldl (toks : List Token) (h : Open index.entries index.top stack) :
    ∃ stack', Open (toks.foldl Index.read index).entries (toks.foldl Index.read index).top stack' ∧
      ∀ k < index.entries.length, k ∉ stack →
        (toks.foldl Index.read index).entries[k]? = index.entries[k]? := by
  induction toks generalizing index stack with
  | nil => exact ⟨stack, h, fun k hk hout => rfl⟩
  | cons tok toks ih =>
    obtain ⟨stack', hopen, hframe⟩ := h.read tok
    obtain ⟨stack'', hopen', hframe'⟩ := ih hopen
    refine ⟨stack'', hopen', fun k hk hout => ?_⟩
    obtain ⟨hout', heq⟩ := hframe k hk hout
    rw [List.foldl_cons, hframe' k (hk.trans_le (read_length_le index tok)) hout', heq]

end MarkdownCore.Citation
