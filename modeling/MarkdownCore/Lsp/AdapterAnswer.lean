import MarkdownCore.Lsp.Adapter
import MarkdownCore.Lsp.Json.Storage

/-!
# What the adapter writes

An answer is put together from pieces, any of which storage may refuse. When none is refused it
is the spelling of one datum, the answer as JSON-RPC has it, and that spelling is read again.
-/

namespace MarkdownCore.Json

/-! ### Spellings that are read -/

/-- A datum no deeper than so many containers whose numbers are numbers. -/
@[grind =] def Datum.Fits : ℕ → Datum → Prop
  | _, .null => True
  | _, .no => True
  | _, .yes => True
  | _, .number u => Number u
  | _, .string _ => True
  | 0, .array _ => False
  | 0, .object _ => False
  | n + 1, .array items => ∀ item ∈ items, Datum.Fits n item
  | n + 1, .object members => ∀ member ∈ members, Datum.Fits n member.2

lemma Spaced.bare {ι : Type} {P : List UInt8 → ι → Prop} {u : List UInt8} {x : ι} (h : P u x) :
    Spaced P u x := by
  have hspaced := Spaced.mk Spaces.nil h Spaces.nil
  rwa [List.nil_append, List.append_nil] at hspaced

lemma bracketed_spell {ι : Type} {P : List UInt8 → ι → Prop} {spell : ι → List UInt8}
    (opening closing : UInt8) {xs : List ι} (h : ∀ x ∈ xs, P (spell x) x) :
    Bracketed P opening closing (opening :: (commas (xs.map spell) ++ [closing])) xs := by
  cases xs with
  | nil => exact Bracketed.none Spaces.nil
  | cons x xs =>
    refine Bracketed.some ?_
    induction xs generalizing x with
    | nil => exact Listed.last (Spaced.bare (h x (List.mem_singleton_self x)))
    | cons y ys ih =>
      refine Listed.more (Spaced.bare (h x List.mem_cons_self)) (ih y ?_)
      exact fun z hz => h z (List.mem_cons_of_mem _ hz)

lemma Datum.Fits.mono : ∀ {n : ℕ} {v : Datum}, v.Fits n → ∀ {m : ℕ}, n ≤ m → v.Fits m := by
  intro n
  induction n with
  | zero =>
    intro v h m _
    cases v with
    | array items => exact h.elim
    | object members => exact h.elim
    | _ => cases m <;> exact h
  | succ n ih =>
    intro v h m hm
    obtain ⟨m, rfl⟩ : ∃ k, m = k + 1 := ⟨m - 1, by omega⟩
    cases v with
    | array items => exact fun item hitem => ih (h item hitem) (by omega)
    | object members => exact fun member hmember => ih (h member hmember) (by omega)
    | _ => exact h

/-- A datum that fits is spelled as a value. -/
lemma Datum.Fits.isValue : ∀ {n : ℕ} {v : Datum}, v.Fits n → IsValue n v.spell v := by
  have hscalar : ∀ {n : ℕ} {u : List UInt8} {v : Datum}, Scalar u v → IsValue n u v := by
    intro n u v h
    cases n with
    | zero => exact h
    | succ n => exact Or.inl h
  intro n
  induction n with
  | zero =>
    intro v h
    cases v with
    | null => exact Scalar.null
    | no => exact Scalar.no
    | yes => exact Scalar.yes
    | number u => exact Scalar.number h
    | string d => exact Scalar.string (quoted_quoted d)
    | array items => exact h.elim
    | object members => exact h.elim
  | succ n ih =>
    intro v h
    cases v with
    | null => exact hscalar Scalar.null
    | no => exact hscalar Scalar.no
    | yes => exact hscalar Scalar.yes
    | number u => exact hscalar (Scalar.number h)
    | string d => exact hscalar (Scalar.string (quoted_quoted d))
    | array items =>
      refine Or.inr (Or.inl ⟨items, rfl, ?_⟩)
      rw [Datum.spell, spellItems_eq]
      exact bracketed_spell 91 93 fun item hitem => ih (h item hitem)
    | object members =>
      refine Or.inr (Or.inr ⟨members, rfl, ?_⟩)
      rw [Datum.spell, spellMembers_eq]
      refine bracketed_spell 123 125 fun member hmember => ?_
      have hmk := Member.mk (quoted_quoted member.1) Spaces.nil Spaces.nil (ih (h member hmember))
      simpa [spellMember] using hmk

/-- And read as that. -/
lemma Datum.Fits.isText {v : Datum} (h : v.Fits maxDepth) : IsText v.spell v :=
  Spaced.bare h.isValue

/-- What a text means fits. -/
lemma IsValue.fits : ∀ {n : ℕ} {u : List UInt8} {v : Datum}, IsValue n u v → v.Fits n := by
  have hscalar : ∀ {n : ℕ} {u : List UInt8} {v : Datum}, Scalar u v → v.Fits n := by
    intro n u v h
    cases h with
    | number hu => cases n <;> exact hu
    | _ => cases n <;> trivial
  have hlisted : ∀ {ι : Type} {P : List UInt8 → ι → Prop} {u : List UInt8} {xs : List ι},
      Listed P u xs → ∀ x ∈ xs, ∃ w, P w x := by
    intro ι P u xs h
    induction h with
    | last hx =>
      intro x hmem
      obtain rfl := List.mem_singleton.mp hmem
      cases hx with
      | mk _ hP _ => exact ⟨_, hP⟩
    | more hx _ ih =>
      intro x hmem
      rcases List.mem_cons.mp hmem with rfl | hmem
      · cases hx with
        | mk _ hP _ => exact ⟨_, hP⟩
      · exact ih x hmem
  have hbracketed : ∀ {ι : Type} {P : List UInt8 → ι → Prop} {a b : UInt8} {u : List UInt8}
      {xs : List ι}, Bracketed P a b u xs → ∀ x ∈ xs, ∃ w, P w x := by
    intro ι P a b u xs h
    cases h with
    | none => exact fun x hx => absurd hx List.not_mem_nil
    | some hlist => exact hlisted hlist
  intro n
  induction n with
  | zero => exact fun h => hscalar h
  | succ n ih =>
    rintro u v (h | ⟨items, rfl, h⟩ | ⟨members, rfl, h⟩)
    · exact hscalar h
    · intro item hitem
      obtain ⟨w, hw⟩ := hbracketed h item hitem
      exact ih hw
    · intro member hmember
      obtain ⟨w, hw⟩ := hbracketed h member hmember
      cases hw with
      | mk _ _ _ hvalue => exact ih hvalue

lemma IsText.fits {t : List UInt8} {v : Datum} (h : IsText t v) : v.Fits maxDepth := by
  cases h with
  | mk _ hv _ => exact hv.fits

/-! ### Members of a datum -/

/-- The member of a key, the first of that name. -/
def Datum.member (key : List UInt8) : Datum → Option Datum
  | .object members => (members.find? fun member => member.1 = key).map (·.2)
  | _ => none

/-- A member that fits in one container less. -/
lemma Datum.Fits.member {n : ℕ} {v w : Datum} {key : List UInt8} (h : v.Fits (n + 1))
    (hw : v.member key = some w) : w.Fits n := by
  cases v with
  | object members =>
    obtain ⟨member, hmember, rfl⟩ := Option.map_eq_some_iff.mp hw
    exact h member (List.mem_of_find?_eq_some hmember)
  | _ => simp [Datum.member] at hw

/-- A value or none of a tree holds a datum or none. -/
def Tree.Points (tree : Tree) (value : Option ℕ) (v : Option Datum) : Prop :=
  Option.Rel (fun v i => ∃ s, tree.Holds i s v) v value

namespace Tree.Points

variable {tree : Tree} {value : Option ℕ} {v : Option Datum}

lemma root (v : Datum) : v.tree.Points (some 0) (some v) := Option.Rel.some ⟨0, v.holds⟩

lemma eq_none_iff (h : tree.Points value v) : value = none ↔ v = none := by
  cases h <;> simp

lemma member (h : tree.Points value v) (key : List UInt8) :
    tree.Points (value.bind fun value => jsonMember tree value key)
      (v.bind (Datum.member key)) := by
  cases h with
  | none => exact Option.Rel.none
  | @some w i hholds =>
    obtain ⟨s, hs⟩ := hholds
    simp only [Option.bind_some]
    cases w with
    | object members =>
      have hrel := hs.visits.2 key
      simp only [Datum.member]
      generalize jsonMember tree i key = found at hrel ⊢
      cases hfind : members.find? fun member => decide (member.1 = key) with
      | none =>
        rw [hfind] at hrel
        cases hrel with
        | none => exact Option.Rel.none
      | some member =>
        rw [hfind] at hrel
        cases hrel with
        | some hmember => exact Option.Rel.some hmember
    | _ =>
      rw [jsonMember, hs.isKind, if_neg (by simp [Datum.kind])]
      exact Option.Rel.none

lemma isKind (h : tree.Points value v) (kind : Kind) :
    (value.any fun value => Json.isKind tree value kind) = true ↔
      ∃ w, v = some w ∧ w.kind = kind := by
  cases h with
  | none => simp
  | some hholds =>
    obtain ⟨s, hs⟩ := hholds
    simp [hs.isKind kind]

lemma isString (h : tree.Points value v) (text : List UInt8) :
    (value.any fun value => jsonIs tree value text) = true ↔ v = some (.string text) := by
  cases h with
  | none => simp
  | @some w i hholds =>
    obtain ⟨s, hs⟩ := hholds
    cases w with
    | string name => simp [jsonIs_string hs]
    | _ => simp [jsonIs, hs.isKind, Datum.kind]

/-- A loop over an array visits its items. -/
lemma items {items : List Datum} {i : ℕ} (h : tree.Points (some i) (some (.array items))) :
    List.Forall₂ (fun v i => tree.Points (some i) (some v)) items (members tree i) := by
  cases h with
  | some hholds =>
    obtain ⟨s, hs⟩ := hholds
    exact hs.visits.imp fun v i hv => Option.Rel.some hv

/-- A value pointed at is written as its datum is spelled. -/
lemma putValue {i : ℕ} {w : Datum} (h : tree.Points (some i) (some w)) (data : List UInt8) :
    Out.putValue (fun _ => true) tree tree.values.length i ⟨data, false⟩ =
      ⟨data ++ w.spell, false⟩ := by
  cases h with
  | some hholds =>
    obtain ⟨s, hs⟩ := hholds
    exact Out.putValue_eq (fun _ => rfl) hs hs.length_le data

end Tree.Points

end MarkdownCore.Json

namespace MarkdownCore.Lsp

open Json Text

/-! ### The answer as a datum -/

/-- The id an answer carries: the message's own when that is a number or a string. -/
def ownId : Option Datum → Datum
  | some (.number u) => .number u
  | some (.string s) => .string s
  | _ => .null

/-- An answer, with its result or its error. -/
def reply (id : Datum) (member : String) (v : Datum) : Datum :=
  .object [(bytes "jsonrpc", .string (bytes "2.0")), (bytes "id", id), (bytes member, v)]

def errorDatum (code : ℤ) : Datum :=
  .object [(bytes "code", .number (bytes (toString code))),
    (bytes "message", .string (reason code))]

def capabilitiesDatum (unit : TextUnit) : Datum :=
  .object [
    (bytes "capabilities", .object [
      (bytes "positionEncoding",
        .string (bytes (if unit = .utf8 then "utf-8" else "utf-16"))),
      (bytes "textDocumentSync", .object [(bytes "openClose", .yes),
        (bytes "change", .number (bytes "2"))]),
      (bytes "completionProvider", .object [
        (bytes "triggerCharacters", .array (slotCues.map fun cue => .string [cue]))])]),
    (bytes "serverInfo", .object [(bytes "name", .string (bytes "markdown-core"))])]

def completionDatum : Datum :=
  .object [(bytes "isIncomplete", .no), (bytes "items", .array [])]

/-- The codes the adapter answers with. -/
def codes : List ℤ := [-32700, -32600, -32601, -32602, -32603, -32002]

lemma number_code {code : ℤ} (h : code ∈ codes) : Number (bytes (toString code)) := by
  have hdigits : ∀ a b c d e : UInt8, Json.isDigit a = true → Json.isDigit b = true →
      Json.isDigit c = true → Json.isDigit d = true → Json.isDigit e = true → a ≠ 48 →
        Number [45, a, b, c, d, e] := by
    intro a b c d e ha hb hc hd he hne
    have hwhole : Whole [a, b, c, d, e] :=
      Whole.digits ⟨by simp, by simp [ha, hb, hc, hd, he]⟩ hne
    exact Number.mk (Or.inr rfl) hwhole Frac.none Exponent.none
  simp only [codes, List.mem_cons, List.not_mem_nil, or_false] at h
  rcases h with rfl | rfl | rfl | rfl | rfl | rfl
  all_goals exact hdigits _ _ _ _ _ rfl rfl rfl rfl rfl (by decide)

/-! ### Writing it -/

section Write

variable {tree : Tree} {id : Option ℕ} {v : Option Datum}

/-- Where nothing is refused. -/
abbrev full : ℕ → Bool := fun _ => true

lemma put_full (data more : List UInt8) :
    Out.put full ⟨data, false⟩ more = ⟨data ++ more, false⟩ :=
  Out.put_eq (fun _ => rfl) data more

lemma putString_full (data more : List UInt8) :
    Out.putString full ⟨data, false⟩ more = ⟨data ++ quoted more, false⟩ :=
  Out.putString_eq (fun _ => rfl) data more

/-- How an answer begins. -/
def replyHead : List UInt8 := bytes "\x7b\"jsonrpc\":\"2.0\",\"id\":"

lemma answer_full (h : tree.Points id v) :
    answer full tree ⟨[], false⟩ id = ⟨replyHead ++ (v.getD .null).spell, false⟩ := by
  cases h with
  | none =>
    simp only [answer, put_full]
    rfl
  | some hholds =>
    simp only [answer, put_full]
    exact Tree.Points.putValue (Option.Rel.some hholds) _

lemma replyHead_eq : replyHead = 123 :: (quoted (bytes "jsonrpc") ++ 58 ::
    (quoted (bytes "2.0") ++ 44 :: (quoted (bytes "id") ++ [58]))) := by
  decide

/-- The spelling of an answer, by its pieces. -/
lemma spell_reply (id : Datum) (member : String) (w : Datum) :
    (reply id member w).spell =
      replyHead ++ id.spell ++ 44 :: (quoted (bytes member) ++ 58 :: (w.spell ++ [125])) := by
  rw [replyHead_eq]
  simp [reply, Datum.spell, spellMembers, commas]

lemma answerError_full (h : tree.Points id v) (code : ℤ) :
    answerError full tree ⟨[], false⟩ id code =
      ⟨(reply (v.getD .null) "error" (errorDatum code)).spell, false⟩ := by
  have hcode : bytes ",\"error\":\x7b\"code\":" =
      44 :: (quoted (bytes "error") ++ 58 :: 123 :: (quoted (bytes "code") ++ [58])) := by
    decide
  have hmessage : bytes ",\"message\":" = 44 :: (quoted (bytes "message") ++ [58]) := by
    decide
  have hend : bytes "\x7d\x7d" = [125, 125] := by decide
  rw [answerError, answer_full h]
  simp only [putInteger]
  rw [put_full, put_full, put_full, putString_full, put_full, spell_reply, hcode, hmessage, hend]
  simp [errorDatum, Datum.spell, spellMembers, commas]

lemma putCues_full (cues : List UInt8) : ∀ (first : Bool) (data : List UInt8),
    putCues full cues first ⟨data, false⟩ =
      ⟨data ++ (if first then commas (cues.map fun cue => quoted [cue])
        else (cues.map fun cue => 44 :: quoted [cue]).flatten), false⟩ := by
  induction cues with
  | nil =>
    intro first data
    cases first <;> simp [putCues, commas]
  | cons cue cues ih =>
    intro first data
    cases first with
    | true =>
      simp only [putCues, if_true]
      rw [putString_full, ih, List.map_cons, commas_cons]
      simp [List.flatMap, List.map_map, Function.comp_def]
    | false =>
      simp only [putCues, Bool.false_eq_true, if_false]
      rw [put_full, putString_full, ih]
      have hcomma : bytes "," = [44] := by decide
      simp [hcomma]

/-- The result of an initialize request, written. -/
lemma capabilities_full (h : tree.Points id v) (unit : TextUnit) :
    (let out := answer full tree ⟨[], false⟩ id
      let out := out.put full
        (bytes ",\"result\":\x7b\"capabilities\":\x7b\"positionEncoding\":")
      let out := out.putString full (bytes (if unit = .utf8 then "utf-8" else "utf-16"))
      let out := out.put full
        (bytes ",\"textDocumentSync\":\x7b\"openClose\":true,\"change\":2\x7d")
      let out := out.put full (bytes ",\"completionProvider\":\x7b\"triggerCharacters\":[")
      let out := putCues full slotCues true out
      out.put full
        (bytes "]\x7d\x7d,\"serverInfo\":\x7b\"name\":\"markdown-core\"\x7d\x7d\x7d")) =
      ⟨(reply (v.getD .null) "result" (capabilitiesDatum unit)).spell, false⟩ := by
  have hfirst : bytes ",\"result\":\x7b\"capabilities\":\x7b\"positionEncoding\":" =
      44 :: (quoted (bytes "result") ++ 58 :: 123 :: (quoted (bytes "capabilities") ++ 58 :: 123 ::
        (quoted (bytes "positionEncoding") ++ [58]))) := by
    decide
  have hsync : bytes ",\"textDocumentSync\":\x7b\"openClose\":true,\"change\":2\x7d" =
      44 :: (quoted (bytes "textDocumentSync") ++ 58 :: 123 :: (quoted (bytes "openClose") ++
        58 :: ([116, 114, 117, 101] ++ 44 :: (quoted (bytes "change") ++ 58 :: (bytes "2" ++
          [125]))))) := by
    decide
  have hprovider : bytes ",\"completionProvider\":\x7b\"triggerCharacters\":[" =
      44 :: (quoted (bytes "completionProvider") ++ 58 :: 123 ::
        (quoted (bytes "triggerCharacters") ++ [58, 91])) := by
    decide
  have hend : bytes "]\x7d\x7d,\"serverInfo\":\x7b\"name\":\"markdown-core\"\x7d\x7d\x7d" =
      93 :: 125 :: 125 :: 44 :: (quoted (bytes "serverInfo") ++ 58 :: 123 ::
        (quoted (bytes "name") ++ 58 :: (quoted (bytes "markdown-core") ++ [125, 125, 125]))) := by
    decide
  have hcues : (slotCues.map fun cue => Datum.string [cue]).map Datum.spell =
      slotCues.map fun cue => quoted [cue] := by
    simp [List.map_map, Function.comp_def, Datum.spell]
  dsimp only
  rw [answer_full h, put_full, putString_full, put_full, put_full, putCues_full, put_full,
    spell_reply, hfirst, hsync, hprovider, hend]
  simp only [if_true, capabilitiesDatum, Datum.spell, spellMembers, spellItems_eq, hcues, commas,
    List.append_assoc, List.cons_append, List.nil_append]

/-- The answer to a completion, written. -/
lemma completion_full (h : tree.Points id v) :
    (answer full tree ⟨[], false⟩ id).put full
        (bytes ",\"result\":\x7b\"isIncomplete\":false,\"items\":[]\x7d\x7d") =
      ⟨(reply (v.getD .null) "result" completionDatum).spell, false⟩ := by
  have hresult : bytes ",\"result\":\x7b\"isIncomplete\":false,\"items\":[]\x7d\x7d" =
      44 :: (quoted (bytes "result") ++ 58 :: 123 :: (quoted (bytes "isIncomplete") ++ 58 ::
        ([102, 97, 108, 115, 101] ++ 44 :: (quoted (bytes "items") ++
          [58, 91, 93, 125, 125])))) := by
    decide
  rw [answer_full h, put_full, spell_reply, hresult]
  simp [completionDatum, Datum.spell, spellMembers, spellItems, commas]

/-- The answer to a shutdown, written. -/
lemma shutdown_full (h : tree.Points id v) :
    (answer full tree ⟨[], false⟩ id).put full (bytes ",\"result\":null\x7d") =
      ⟨(reply (v.getD .null) "result" .null).spell, false⟩ := by
  have hresult : bytes ",\"result\":null\x7d" =
      44 :: (quoted (bytes "result") ++ 58 :: ([110, 117, 108, 108] ++ [125])) := by
    decide
  rw [answer_full h, put_full, spell_reply, hresult]
  simp [Datum.spell]

end Write

end MarkdownCore.Lsp
