import MarkdownCore.Inline.Backticks

/-!
# Calls through one index

A sequence of scans shares one index. The kept position of a length is the last one *passed*,
not the last one there is: a scan that goes over earlier text again puts an earlier run in its
place, and from then on a length may be refused though a run of it lies ahead.
-/

namespace MarkdownCore.Inline

/-- A scan one of the elements asks for. -/
structure BacktickCall where
  pos : ℕ
  openticklength : ℕ
  short : openticklength ≤ maxBackticks

/-- What the rest of the run a cursor is inside of would be taken for. -/
def Cuts (data : List UInt8) (pos openticklength : ℕ) : Prop :=
  Inside data pos ∧ width (fun c => c = tick) data pos = openticklength

/-- A scan that the index answers as the content does: refused only with no run ahead, and
otherwise not begun inside a run with just the asked length left of it. -/
structure BacktickCall.Fits (call : BacktickCall) (input : Content) (backticks : CodeBackticks) :
    Prop where
  kept : (backticks.ready input).refuses call.pos call.openticklength →
    ∀ start, call.pos ≤ start → ¬ Run input.data start call.openticklength
  whole : ¬ (backticks.ready input).refuses call.pos call.openticklength →
    ¬ Cuts input.data call.pos call.openticklength

end MarkdownCore.Inline
