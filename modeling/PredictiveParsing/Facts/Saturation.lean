/-!
# Saturation

Repeating a step until it changes nothing.

* `saturate`: the state in which a step changes nothing, with the number of steps taken;
* `saturate_fixed`: where the step changes nothing, one step is taken.
-/

namespace PredictiveParsing

variable {σ : Type} [DecidableEq σ]

/-- Takes a step again and again until it changes nothing, `bound` times at most. The step that
changes nothing is counted. -/
def saturate (step : σ → σ) : Nat → σ → σ × Nat
  | 0, s => (s, 0)
  | bound + 1, s =>
    let s' := step s
    if s' = s then (s, 1)
    else
      let (last, count) := saturate step bound s'
      (last, count + 1)

theorem saturate_fixed {step : σ → σ} {s : σ} (h : step s = s) (bound : Nat) :
    saturate step (bound + 1) s = (s, 1) := by
  simp [saturate, h]

end PredictiveParsing
