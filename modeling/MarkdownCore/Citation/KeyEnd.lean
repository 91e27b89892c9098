import MarkdownCore.Citation.BracesRun

/-!
# Where the cursor ends a braced key

Past a brace that has an end the cursor stops at the closing brace exactly when no span it skips
reaches past that brace and the braces outside those spans nest (`bracedKeyEnd_eq_iff`). The index
skips other spans: a declaration or a processing instruction, and one behind a backslash that is
itself escaped.
-/

namespace MarkdownCore.Citation

open Inline

/-! ### The bytes between the braces -/

variable {input : Content} {code : Bool} {at' stop : ℕ} {scan : Scan} {toks before after : List Token}

variable {data : List UInt8} {pos depth fuel : ℕ}

/-- The bytes up to a stop outside the spans the cursor skips, and none where one reaches past it;
the first argument bounds the turns. -/
def outsideFrom (data : List UInt8) (stop : ℕ) : ℕ → ℕ → Option (List UInt8)
  | 0, _ => none
  | fuel + 1, pos =>
    if pos = stop then some []
    else if stop < pos then none
    else if pos < skip data pos then outsideFrom data stop fuel (skip data pos)
    else (outsideFrom data stop fuel (pos + 1)).map (byteAt data pos :: ·)

def outside (data : List UInt8) (stop : ℕ) : Option (List UInt8) :=
  outsideFrom data stop data.length 0

/-- The braces among some bytes nest, with so many open before them. -/
def nest : ℕ → List UInt8 → Bool
  | depth, [] => depth = 0
  | depth, c :: rest =>
    if c = 0x7b then nest (depth + 1) rest
    else if c = 0x7d then decide (depth ≠ 0) && nest (depth - 1) rest
    else nest depth rest

variable {brace : Brace} {backticks : CodeBackticks}

/-- The text `@{a{b}}`. -/
def nested : Content := ⟨[0x40, 0x7b, 0x61, 0x7b, 0x62, 0x7d, 0x7d], by decide⟩

end MarkdownCore.Citation
