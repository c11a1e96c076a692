/-!
# Saturation

The least set that contains some seeds and is closed under a rule, over finitely many candidates. The
rule says whether a candidate belongs to the set given what has been found; it is meant to be
monotone, and then the order of the candidates does not matter.
-/

namespace Datapack.Optimize

/-- Add candidates to `found` until no candidate left satisfies the rule. `skipped` holds the
candidates that did not satisfy it since the last one was added. -/
def saturate {α : Type} (rule : List α → α → Bool) (found todo skipped : List α) : List α :=
  match todo with
  | [] => found
  | x :: rest =>
    if rule found x then saturate rule (x :: found) (rest ++ skipped) []
    else saturate rule found rest (x :: skipped)
termination_by (todo.length + skipped.length, todo.length)
decreasing_by
  · simp_wf
    exact Prod.Lex.left _ _ (by omega)
  · simp_wf
    have : rest.length + (skipped.length + 1) = rest.length + 1 + skipped.length := by omega
    rw [this]
    exact Prod.Lex.right _ (by omega)

/-- The least set that contains the seeds and every candidate the rule admits. -/
def closure {α : Type} (rule : List α → α → Bool) (seeds candidates : List α) : List α :=
  saturate rule seeds candidates []

end Datapack.Optimize
