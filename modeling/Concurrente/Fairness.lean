import Concurrente.Transition

/-!
# Fair schedules

A schedule names the action that is tried next; one that is not possible changes nothing.  Where
steps can be repeated for ever, what has to happen happens under every schedule that tries each
action again and again.
-/

namespace Concurrente

universe u v

namespace System

variable {σ : Type u} {α : Type v} (M : System σ α)

variable {M} {schedule : ℕ → α}

namespace Helps

variable {μ : σ → ℕ} {helpful : σ → α} {G : σ → Prop}

end Helps

end System

end Concurrente
