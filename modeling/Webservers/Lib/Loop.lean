import Mathlib.Tactic.Common
import Mathlib.Data.Nat.Notation

/-!
# Loops

A loop is given by its body: from a state of the loop it either leaves with a result or goes on
from another state. `run` executes at most `n` rounds, and has no result when these were too few.

* `run_eq_some_of_measure`: a measure that every round lowers bounds the number of rounds, and a
  function that the rounds do not change is the result.
-/

namespace Webservers
namespace Loop

variable {σ ρ : Type*} {body : σ → ρ ⊕ σ} {s t : σ} {r : ρ} {n : ℕ}

/-- At most `n` rounds of a loop. -/
def run (body : σ → ρ ⊕ σ) : ℕ → σ → Option ρ
  | 0, _ => none
  | n + 1, s =>
    match body s with
    | .inl r => some r
    | .inr t => run body n t

theorem run_leave (h : body s = .inl r) : run body (n + 1) s = some r := by
  rw [run, h]

theorem run_next (h : body s = .inr t) : run body (n + 1) s = run body n t := by
  rw [run, h]

/-- Every round lowers `μ`, and `f` says what the loop computes: then the loop ends with it,
after no more rounds than `μ` allows. -/
theorem run_eq_some_of_measure {f : σ → ρ} (μ : σ → ℕ)
    (hleave : ∀ s r, body s = .inl r → f s = r)
    (hnext : ∀ s t, body s = .inr t → f s = f t ∧ μ t < μ s)
    (hn : μ s < n) : run body n s = some (f s) := by
  induction n generalizing s with
  | zero => omega
  | succ n ih =>
    cases hbody : body s with
    | inl r => rw [run_leave hbody, hleave s r hbody]
    | inr t =>
      obtain ⟨hf, hlt⟩ := hnext s t hbody
      rw [run_next hbody, ih (by omega), hf]

end Loop
end Webservers
