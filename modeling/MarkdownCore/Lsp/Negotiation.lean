import MarkdownCore.Lsp.AdapterRun

/-!
# The position unit

A client offers its position encodings in an array. The adapter copies the names it knows into a
row of two, in the order they stand in, and the server takes UTF-8 if it is in the row. A name
offered twice takes two places.
-/

namespace MarkdownCore.Lsp

open Json Text

/-- Whether an entry is a name. -/
def isName (name : String) : Datum → Bool
  | .string s => s = bytes name
  | _ => false

/-- The unit an entry names, if it is one of the two. -/
def unitOf (entry : Datum) : Option TextUnit :=
  if isName "utf-8" entry then some .utf8
  else if isName "utf-16" entry then some .utf16
  else none

/-- The unit a server takes of a row. -/
def chosen (units : List TextUnit) : TextUnit :=
  units.foldl (fun unit offered => if offered = .utf8 then .utf8 else unit) .utf16

lemma isText_eq_isName {tree : Tree} {i : ℕ} {entry : Datum}
    (h : tree.Points (some i) (some entry)) (name : String) :
    isText tree (some i) name = isName name entry := by
  rw [Bool.eq_iff_iff, isText, h.isString, Option.some.injEq]
  cases entry with
  | string s => simp [isName]
  | _ => simp [isName]

/-- The row is the first two of the names that are known. -/
lemma offeredUnits_eq {tree : Tree} {entries : List Datum} {names : List ℕ}
    (h : List.Forall₂ (fun v i => tree.Points (some i) (some v)) entries names) :
    offeredUnits tree names = (entries.filterMap unitOf).take 2 := by
  have hfold : ∀ units : List TextUnit, units.length ≤ 2 →
      names.foldl (fun units name =>
        if units.length < 2 ∧ isText tree (some name) "utf-8" then units ++ [.utf8]
        else if units.length < 2 ∧ isText tree (some name) "utf-16" then units ++ [.utf16]
        else units) units = units ++ (entries.filterMap unitOf).take (2 - units.length) := by
    induction h with
    | nil =>
      intro units _
      simp
    | @cons entry name entries names hentry _ ih =>
      intro units hle
      rw [List.foldl_cons, isText_eq_isName hentry, isText_eq_isName hentry, List.filterMap_cons]
      by_cases hfull : units.length < 2
      · obtain ⟨k, hk⟩ : ∃ k, 2 - units.length = k + 1 := ⟨1 - units.length, by omega⟩
        have hstep : ∀ unit : TextUnit, (units ++ [unit]).length ≤ 2 := fun unit => by
          rw [List.length_append, List.length_singleton]
          omega
        have hrest : ∀ unit : TextUnit, 2 - (units ++ [unit]).length = k := fun unit => by
          rw [List.length_append, List.length_singleton]
          omega
        by_cases height : isName "utf-8" entry = true
        · rw [if_pos ⟨hfull, height⟩, ih _ (hstep _), hrest, unitOf, if_pos height, hk]
          simp
        · rw [if_neg (fun hc => height hc.2)]
          by_cases hsixteen : isName "utf-16" entry = true
          · rw [if_pos ⟨hfull, hsixteen⟩, ih _ (hstep _), hrest, unitOf, if_neg height,
              if_pos hsixteen, hk]
            simp
          · rw [if_neg (fun hc => hsixteen hc.2), ih _ hle, unitOf, if_neg height,
              if_neg hsixteen]
      · rw [if_neg (fun hc => hfull hc.1), if_neg (fun hc => hfull hc.1), ih _ hle,
          show 2 - units.length = 0 by omega]
        simp
  have h0 := hfold [] (Nat.zero_le 2)
  rwa [List.nil_append, List.length_nil, Nat.sub_zero] at h0

lemma chosen_eq_utf8_iff (units : List TextUnit) : chosen units = .utf8 ↔ .utf8 ∈ units := by
  have hfold : ∀ (units : List TextUnit) (unit : TextUnit),
      units.foldl (fun unit offered => if offered = .utf8 then .utf8 else unit) unit = .utf8 ↔
        unit = .utf8 ∨ .utf8 ∈ units := by
    intro units
    induction units with
    | nil => simp
    | cons offered units ih =>
      intro unit
      rw [List.foldl_cons, ih, List.mem_cons]
      by_cases h : offered = .utf8
      · simp [h]
      · simp [h, Ne.symm h]
  rw [chosen, hfold]
  simp

/-- How many entries name UTF-16 before the first that names UTF-8. -/
def sixteenBefore (entries : List Datum) : ℕ :=
  (entries.takeWhile fun entry => !isName "utf-8" entry).countP (isName "utf-16")

/-- UTF-8 is in the row when it is offered and at most one UTF-16 stands before it. -/
lemma utf8_mem_row (entries : List Datum) : ∀ n,
    TextUnit.utf8 ∈ (entries.filterMap unitOf).take n ↔
      entries.any (isName "utf-8") = true ∧ sixteenBefore entries < n := by
  induction entries with
  | nil => simp
  | cons entry entries ih =>
    intro n
    rw [List.filterMap_cons, List.any_cons, sixteenBefore, List.takeWhile_cons]
    by_cases height : isName "utf-8" entry = true
    · simp only [unitOf, height, if_true, Bool.true_or, Bool.not_true, Bool.false_eq_true,
        if_false, List.countP_nil, true_and]
      cases n with
      | zero => simp
      | succ n => simp
    · rw [Bool.not_eq_true] at height
      simp only [unitOf, height, Bool.false_eq_true, if_false, Bool.false_or, Bool.not_false,
        if_true, List.countP_cons]
      by_cases hsixteen : isName "utf-16" entry = true
      · simp only [hsixteen, if_true]
        cases n with
        | zero => simp
        | succ n =>
          rw [List.take_succ_cons, List.mem_cons, ih n]
          simp [sixteenBefore]
      · simp only [hsixteen, Bool.false_eq_true, if_false, Nat.add_zero]
        exact ih n

/-! ### The request -/

/-- An initialize request that offers an array of encodings, with the storage it needs. -/
structure Offer where
  body : List UInt8
  allow : Allowance
  reads : ∀ n, allow.read n = true
  writes : ∀ n, allow.write n = true
  v : Datum
  meaning : IsText body v
  isRequest : IsRequest v (bytes "initialize")
  params : Datum
  isParams : v.member (bytes "params") = some params
  entries : List Datum
  isOffer : ((params.member (bytes "capabilities")).bind (Datum.member (bytes "general"))).bind
    (Datum.member (bytes "positionEncodings")) = some (.array entries)

/-- A server before its initialize. -/
structure FreshServer where
  server : Server
  fresh : server.phase = .fresh

/-- The unit the offer asks for: UTF-8 iff some entry is its name. -/
def Offer.unit (offer : Offer) : TextUnit :=
  if offer.entries.any (isName "utf-8") then .utf8 else .utf16

lemma FreshServer.initialized (fresh : FreshServer) (units : List TextUnit) :
    fresh.server.lspInitialize units =
      (.ok, { fresh.server with phase := .active, unit := chosen units }) := by
  unfold Server.lspInitialize
  rw [if_neg (by simp [fresh.fresh])]
  rfl

/-- A handling that counts positions in a unit and announces it. -/
def Counts (handled : Handled) (unit : TextUnit) : Prop :=
  handled.server.unit = unit ∧
    ∃ w, IsText handled.out.data w ∧ w.member (bytes "result") = some (capabilitiesDatum unit)

lemma kind_of_member {v w : Datum} {key : List UInt8} (h : v.member key = some w) :
    v.kind = .object := by
  cases v with
  | object members => rfl
  | _ => simp [Datum.member] at h

/-- A request that has been read is taken as one. -/
lemma handle_request {hash : Uri → ℕ} {server : Server} {allow : Allowance} {body : List UInt8}
    {tree : Tree} {v : Datum} {method : List UInt8} (hread : jsonRead allow.read body = .ok tree)
    (hroot : tree.Points (some 0) (some v)) (hrequest : IsRequest v method) :
    handle hash server allow body =
      let r := request allow.write tree hash server allow.completes ⟨[], false⟩
        (memberOf tree (some 0) "id") (memberOf tree (some 0) "method")
        (memberOf tree (some 0) "params")
      ⟨r.1, r.2, false, none⟩ := by
  obtain ⟨hkind, hversion, hmethod, id, hid, hidKind⟩ := hrequest
  have hidPoints : tree.Points (memberOf tree (some 0) "id") (v.member (bytes "id")) :=
    hroot.member _
  have hmethodPoints : tree.Points (memberOf tree (some 0) "method")
      (v.member (bytes "method")) := hroot.member _
  have hversionPoints : tree.Points (memberOf tree (some 0) "jsonrpc")
      (v.member (bytes "jsonrpc")) := hroot.member _
  have hsome : memberOf tree (some 0) "id" ≠ none := by
    rw [ne_eq, hidPoints.eq_none_iff, hid]
    simp
  have hobject : hasKind tree (some 0) .object = true := hroot.isKind _ |>.mpr ⟨v, rfl, hkind⟩
  have htwo : isText tree (memberOf tree (some 0) "jsonrpc") "2.0" = true :=
    (hversionPoints.isString _).mpr hversion
  have hstring : hasKind tree (memberOf tree (some 0) "method") .string = true :=
    (hmethodPoints.isKind _).mpr ⟨_, hmethod, rfl⟩
  have hvalid : (hasKind tree (memberOf tree (some 0) "id") .number ||
      hasKind tree (memberOf tree (some 0) "id") .string) = true := by
    rw [Bool.or_eq_true]
    rcases hidKind with h | h
    · exact Or.inl ((hidPoints.isKind _).mpr ⟨id, hid, h⟩)
    · exact Or.inr ((hidPoints.isKind _).mpr ⟨id, hid, h⟩)
  have hnone : memberOf tree (some 0) "method" ≠ none := by
    rw [ne_eq, hmethodPoints.eq_none_iff, hmethod]
    simp
  unfold handle
  rw [hread]
  dsimp only
  rw [if_neg (fun h => hnone h.2.1), if_neg, if_pos hsome]
  rintro (h | h | h | h)
  · exact h hobject
  · exact h htwo
  · exact h hstring
  · exact h.2 hvalid

/-- The unit is chosen from the row of two, and announced. -/
lemma Offer.counts (hash : Uri → ℕ) (fresh : FreshServer) (offer : Offer) :
    Counts (handle hash fresh.server offer.allow offer.body)
      (chosen ((offer.entries.filterMap unitOf).take 2)) := by
  have hread := jsonRead_complete offer.reads offer.meaning
  have hroot := Tree.Points.root offer.v
  generalize offer.v.tree = tree at hread hroot
  have hid : tree.Points (memberOf tree (some 0) "id") (offer.v.member (bytes "id")) :=
    hroot.member _
  have hmethod : isText tree (memberOf tree (some 0) "method") "initialize" = true :=
    ((hroot.member _).isString _).mpr offer.isRequest.2.2.1
  have hparams : tree.Points (memberOf tree (some 0) "params") (some offer.params) := by
    have h : tree.Points (memberOf tree (some 0) "params") (offer.v.member (bytes "params")) :=
      hroot.member _
    rwa [offer.isParams] at h
  have hobject : hasKind tree (memberOf tree (some 0) "params") .object = true := by
    refine (hparams.isKind _).mpr ⟨offer.params, rfl, ?_⟩
    cases hc : offer.params.member (bytes "capabilities") with
    | none =>
      have hoffer := offer.isOffer
      rw [hc] at hoffer
      cases hoffer
    | some w => exact kind_of_member hc
  have hoffered : tree.Points (memberOf tree (memberOf tree (memberOf tree
      (memberOf tree (some 0) "params") "capabilities") "general") "positionEncodings")
      (some (.array offer.entries)) := by
    rw [← offer.isOffer]
    exact ((hparams.member _).member _).member _
  obtain ⟨id, hidEq, hidKind⟩ := offer.isRequest.2.2.2
  have hfull : offer.allow.write = full := funext offer.writes
  have hrequest : request full tree hash fresh.server offer.allow.completes ⟨[], false⟩
      (memberOf tree (some 0) "id") (memberOf tree (some 0) "method")
      (memberOf tree (some 0) "params") =
      ({ fresh.server with
          phase := .active
          unit := chosen ((offer.entries.filterMap unitOf).take 2) },
        ⟨(reply id "result"
          (capabilitiesDatum (chosen ((offer.entries.filterMap unitOf).take 2)))).spell,
          false⟩) := by
    have hwritten := capabilities_full hid (chosen ((offer.entries.filterMap unitOf).take 2))
    rw [hidEq, Option.getD_some] at hwritten
    unfold request takeRequest
    rw [if_pos hmethod]
    unfold answerInitialize
    rw [if_neg (by simp [hobject])]
    cases hpointer : memberOf tree (memberOf tree (memberOf tree
        (memberOf tree (some 0) "params") "capabilities") "general") "positionEncodings" with
    | none =>
      rw [hpointer] at hoffered
      cases hoffered
    | some i =>
      rw [hpointer] at hoffered
      have harray : isKind tree i .array = true := by
        have h := (hoffered.isKind .array).mpr ⟨_, rfl, rfl⟩
        simpa using h
      have hunits : (if isKind tree i .array = true then offeredUnits tree (members tree i) else [])
          = (offer.entries.filterMap unitOf).take 2 := by
        rw [if_pos harray, offeredUnits_eq hoffered.items]
      have hok : ¬ Answer.ok ≠ Answer.ok := fun h => h rfl
      dsimp only at hwritten
      simp only [hunits, fresh.initialized, if_neg hok, hwritten]
      rw [if_neg (fun h => h rfl)]
  rw [handle_request hread hroot offer.isRequest, hfull, hrequest]
  have hown : ownId (offer.v.member (bytes "id")) = id := by
    rw [hidEq, ownId_of_kind hidKind]
  have hfits := fits_of_outcome offer.meaning
    (fits_capabilities (chosen ((offer.entries.filterMap unitOf).take 2)))
  rw [hown] at hfits
  refine ⟨rfl, _, isText_reply "result" hfits, ?_⟩
  have h1 : bytes "jsonrpc" ≠ bytes "result" := by decide
  have h2 : bytes "id" ≠ bytes "result" := by decide
  simp [reply, Datum.member, h1, h2]

/-- Handlings count in one unit. -/
lemma Counts.unique {handled : Handled} {unit other : TextUnit} (h : Counts handled unit)
    (h' : Counts handled other) : unit = other := h.1.symm.trans h'.1

/-- On a fresh server an initialize request is answered with the unit its offer asks for, and
positions are counted in it, exactly when UTF-8 is not offered or at most one entry before the
first that offers it names UTF-16. -/
theorem counts_iff (hash : Uri → ℕ) (fresh : FreshServer) (offer : Offer) :
    Counts (handle hash fresh.server offer.allow offer.body) offer.unit ↔
      (offer.entries.any (isName "utf-8") = true → sixteenBefore offer.entries < 2) := by
  have hcounts := offer.counts hash fresh
  have hrow := (chosen_eq_utf8_iff ((offer.entries.filterMap unitOf).take 2)).trans
    (utf8_mem_row offer.entries 2)
  have hunit : offer.unit = .utf8 ↔ offer.entries.any (isName "utf-8") = true := by
    unfold Offer.unit
    split
    · rename_i h
      exact iff_of_true rfl h
    · rename_i h
      exact iff_of_false (by simp) h
  constructor
  · intro h hany
    have heq := hcounts.unique h
    rw [hunit.mpr hany] at heq
    exact (hrow.mp heq).2
  · intro h
    have heq : offer.unit = chosen ((offer.entries.filterMap unitOf).take 2) := by
      cases hany : offer.entries.any (isName "utf-8") with
      | true => rw [hunit.mpr hany, hrow.mpr ⟨hany, h hany⟩]
      | false =>
        have hnot : chosen ((offer.entries.filterMap unitOf).take 2) ≠ .utf8 := by
          intro hcon
          rw [(hrow.mp hcon).1] at hany
          cases hany
        have hsixteen : ∀ unit : TextUnit, unit ≠ .utf8 → unit = .utf16 := by
          intro unit hne
          cases unit with
          | utf8 => exact absurd rfl hne
          | utf16 => rfl
        rw [hsixteen _ hnot]
        unfold Offer.unit
        rw [hany]
        rfl
    rw [heq]
    exact hcounts

/-- An object of one member. -/
def only (key : String) (v : Datum) : Datum := .object [(bytes key, v)]

/-- The request of a client that names UTF-16 twice before UTF-8. -/
def twiceSixteen : Datum := .object [(bytes "jsonrpc", .string (bytes "2.0")),
  (bytes "id", .number (bytes "1")), (bytes "method", .string (bytes "initialize")),
  (bytes "params", only "capabilities" (only "general" (only "positionEncodings"
    (.array [.string (bytes "utf-16"), .string (bytes "utf-16"), .string (bytes "utf-8")]))))]

lemma fits_twiceSixteen : twiceSixteen.Fits maxDepth := by
  have hone : Number (bytes "1") := by
    have hbytes : bytes "1" = [49] := by decide
    have hwhole : Whole [49] := Whole.digits ⟨by simp, by simp [Json.isDigit]⟩ (by simp)
    rw [hbytes]
    exact Number.mk (Or.inl rfl) hwhole Frac.none Exponent.none
  have hshallow : twiceSixteen.Fits 5 := by
    simp only [twiceSixteen, only, Datum.Fits, List.mem_cons, List.not_mem_nil, or_false,
      forall_eq_or_imp, forall_eq]
    exact ⟨trivial, hone, trivial, trivial, trivial, trivial⟩
  exact hshallow.mono (by decide)

/-- The offer that is lost, with all the storage it needs. -/
def twiceSixteenOffer : Offer where
  body := twiceSixteen.spell
  allow := ⟨fun _ => true, fun _ => true, ⟨true, true, ⟨fun line => line, fun _ => false⟩⟩,
    fun _ => true, fun _ => ⟨true, true, 0, ⟨fun line => line, fun _ => false⟩, true, [], true⟩,
    true⟩
  reads := fun _ => rfl
  writes := fun _ => rfl
  v := twiceSixteen
  meaning := fits_twiceSixteen.isText
  isRequest := ⟨rfl, rfl, rfl, .number (bytes "1"), rfl, Or.inl rfl⟩
  params := only "capabilities" (only "general" (only "positionEncodings"
    (.array [.string (bytes "utf-16"), .string (bytes "utf-16"), .string (bytes "utf-8")])))
  isParams := rfl
  entries := [.string (bytes "utf-16"), .string (bytes "utf-16"), .string (bytes "utf-8")]
  isOffer := rfl

/-- Two entries that name UTF-16 take the row, and the UTF-8 after them is lost. -/
theorem utf8_lost :
    twiceSixteenOffer.entries.any (isName "utf-8") = true ∧
      (handle (fun _ => 0) Server.new twiceSixteenOffer.allow twiceSixteenOffer.body).server.unit
        = .utf16 := by
  have hcounts := twiceSixteenOffer.counts (fun _ => 0) ⟨Server.new, rfl⟩
  have hsixteen : unitOf (.string (bytes "utf-16")) = some .utf16 := by decide
  have height : isName "utf-8" (.string (bytes "utf-8")) = true := by decide
  have hchosen : chosen ((twiceSixteenOffer.entries.filterMap unitOf).take 2) = .utf16 := by
    simp [twiceSixteenOffer, hsixteen, chosen]
  rw [hchosen] at hcounts
  obtain ⟨hunit, _⟩ := hcounts
  refine ⟨by simp [twiceSixteenOffer, height], ?_⟩
  rw [← hunit]

end MarkdownCore.Lsp
