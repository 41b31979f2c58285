import Webservers.Lib.Machine

/-!
# A machine seen through one of its parts

Many machines are made of parts that do not know of each other. `view` gives a part of the state,
and `seen` says which step of that part a step of the whole machine is, if it is one at all.

* `project` collects these steps along a run;
* `view_exec` and `project_outputs`: if every step of a run is a step of the part or leaves it
  alone, then the part ends up, and answers, as if it had made these steps alone;
* `simulate_exec` is for a part whose state is only related to that of the whole, and whose steps
  have to be shown to be enabled.
-/

namespace Webservers
namespace Machine

variable {σ τ α β γ : Type*}

/-- What `seen` gives along the run `as` from `s`. -/
def project (step : σ → α → Option σ) (seen : σ → α → Option β) : σ → List α → List β
  | _, [] => []
  | s, a :: as =>
    match step s a with
    | none => []
    | some t => (seen s a).toList ++ project step seen t as

/-- The answers of a part that makes the steps `bs` from `p`. -/
def outputs (next : τ → β → τ) (out : τ → β → γ) : τ → List β → List γ
  | _, [] => []
  | p, b :: bs => out p b :: outputs next out (next p b) bs

variable {step : σ → α → Option σ} {view : σ → τ} {seen : σ → α → Option β} {next : τ → β → τ}
  {P : σ → α → Prop} {s t : σ} {as : List α}

theorem project_cons {a : α} (h : step s a = some t) :
    project step seen s (a :: as) = (seen s a).toList ++ project step seen t as := by
  rw [project, h]

theorem view_exec
    (hview : ∀ s a t, P s a → step s a = some t →
      view t = (seen s a).elim (view s) (next (view s)))
    (hP : Along step P s as) (h : exec step s as = some t) :
    view t = (project step seen s as).foldl next (view s) := by
  induction as generalizing s with
  | nil =>
    cases h
    rfl
  | cons a as ih =>
    obtain ⟨u, hu, hrest⟩ := exec_cons_eq_some.mp h
    obtain ⟨hPa, hPas⟩ := hP u hu
    rw [ih hPas hrest, hview s a u hPa hu, project_cons hu]
    cases seen s a <;> rfl

theorem project_outputs (out : τ → β → γ)
    (hview : ∀ s a t, P s a → step s a = some t →
      view t = (seen s a).elim (view s) (next (view s)))
    (hP : Along step P s as) :
    project step (fun s a => (seen s a).map (out (view s))) s as =
      outputs next out (view s) (project step seen s as) := by
  induction as generalizing s with
  | nil => rfl
  | cons a as ih =>
    cases ha : step s a with
    | none => rw [project, project, ha, outputs]
    | some t =>
      obtain ⟨hPa, hPas⟩ := hP t ha
      rw [project_cons ha, project_cons ha, ih hPas, hview s a t hPa ha]
      cases seen s a <;> rfl

theorem simulate_exec {move : τ → β → Option τ} {R : σ → τ → Prop} {p : τ}
    (hstep : ∀ s a t p, R s p → P s a → step s a = some t →
      ∃ q, exec move p (seen s a).toList = some q ∧ R t q)
    (hp : R s p) (hP : Along step P s as) (h : exec step s as = some t) :
    ∃ q, exec move p (project step seen s as) = some q ∧ R t q := by
  induction as generalizing s p with
  | nil =>
    cases h
    exact ⟨p, rfl, hp⟩
  | cons a as ih =>
    obtain ⟨u, hu, hrest⟩ := exec_cons_eq_some.mp h
    obtain ⟨hPa, hPas⟩ := hP u hu
    obtain ⟨q, hq, hR⟩ := hstep s a u p hp hPa hu
    obtain ⟨r, hr, hlast⟩ := ih hR hPas hrest
    rw [project_cons hu]
    exact ⟨r, exec_append_eq_some.mpr ⟨q, hq, hr⟩, hlast⟩

end Machine
end Webservers
