/-!
# The status of a reactor

What the loops of the executor ask a reactor for. A reactor of the repository counts what it
has under way, and runs as long as the count is positive.
-/

namespace Pluvio

/-- `ReactorStatus`. -/
inductive ReactorStatus
  | running
  | stopped
  deriving DecidableEq

/-- A reactor that runs under a condition. -/
@[simp] theorem ReactorStatus.ite_eq_running {p : Prop} [Decidable p] :
    (if p then running else stopped) = running ↔ p := by
  split <;> simp_all

end Pluvio
