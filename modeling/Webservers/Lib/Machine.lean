import Mathlib.Tactic.Common
import Mathlib.Data.Nat.Notation

/-!
# Labelled machines

A machine is a partial step function `step : σ → α → Option σ`: the label says which
party moves and what the environment answers, and `none` means that the label is not
enabled in that state. A run is a list of labels.

* `exec` runs a list of labels, `Reachable` forgets which one it was;
* `exec_invariant` and `reachable_invariant` turn a step lemma into a run lemma;
* `exec_length_le` and `exists_exec_of_measure` are for steps that use something up;
* `Along` says that every step of a run meets a condition on the state it starts from,
  `Always` that every state a run passes has a property.
-/

namespace Webservers
namespace Machine

variable {σ α : Type*}

/-- Run a list of labels from `s`, `none` as soon as one of them is not enabled. -/
def exec (step : σ → α → Option σ) : σ → List α → Option σ
  | s, [] => some s
  | s, a :: as => (step s a).bind fun t => exec step t as

/-- Some run leads from `s₀` to `s`. -/
def Reachable (step : σ → α → Option σ) (s₀ s : σ) : Prop :=
  ∃ as, exec step s₀ as = some s

/-- Every step of the run `as` from `s` meets `P`, which sees the state before the step
and the label. A run ends at the first label that is not enabled. -/
def Along (step : σ → α → Option σ) (P : σ → α → Prop) : σ → List α → Prop
  | _, [] => True
  | s, a :: as => ∀ t, step s a = some t → P s a ∧ Along step P t as

/-- `I` holds in every state that the run `as` from `s` passes, the first and the last
included. -/
def Always (step : σ → α → Option σ) (I : σ → Prop) : σ → List α → Prop
  | s, [] => I s
  | s, a :: as => I s ∧ ∀ t, step s a = some t → Always step I t as

variable {step : σ → α → Option σ} {P : σ → α → Prop} {s t u : σ} {a : α} {as bs : List α}

/-- Conditions along a run are checked by running it. -/
instance decidableAlong [∀ s a, Decidable (P s a)] : ∀ s as, Decidable (Along step P s as)
  | _, [] => .isTrue trivial
  | s, a :: as =>
    match h : step s a with
    | none => .isTrue fun _ ht => absurd (h.symm.trans ht) (Option.some_ne_none _).symm
    | some t =>
      have := decidableAlong t as
      decidable_of_iff (P s a ∧ Along step P t as)
        ⟨fun hP _ hu => Option.some.inj (h.symm.trans hu) ▸ hP, fun hall => hall t h⟩

@[simp] theorem exec_nil : exec step s [] = some s := rfl

theorem exec_cons_eq_some :
    exec step s (a :: as) = some u ↔ ∃ t, step s a = some t ∧ exec step t as = some u := by
  rw [exec, Option.bind_eq_some_iff]

theorem exec_append_eq_some :
    exec step s (as ++ bs) = some u ↔
      ∃ t, exec step s as = some t ∧ exec step t bs = some u := by
  induction as generalizing s with
  | nil => simp
  | cons a as ih =>
    rw [List.cons_append, exec_cons_eq_some]
    constructor
    · rintro ⟨v, hv, hrest⟩
      obtain ⟨t, ht, hu⟩ := ih.mp hrest
      exact ⟨t, exec_cons_eq_some.mpr ⟨v, hv, ht⟩, hu⟩
    · rintro ⟨t, ht, hu⟩
      obtain ⟨v, hv, hrest⟩ := exec_cons_eq_some.mp ht
      exact ⟨v, hv, ih.mpr ⟨t, hrest, hu⟩⟩

/-- Labels that change nothing can be left out of a run. -/
theorem exec_filter {keep : α → Bool} (h : ∀ s a, keep a = false → step s a = some s) :
    exec step s (as.filter keep) = exec step s as := by
  induction as generalizing s with
  | nil => rfl
  | cons a as ih =>
    cases hkeep : keep a with
    | true =>
      rw [List.filter_cons_of_pos hkeep, exec, exec]
      exact congrArg _ (funext fun t => ih)
    | false =>
      rw [List.filter_cons_of_neg (by rw [hkeep]; exact Bool.false_ne_true), ih, exec,
        h s a hkeep, Option.bind_some]

theorem Reachable.tail {s₀ : σ} (h : Reachable step s₀ s) (ha : step s a = some t) :
    Reachable step s₀ t := by
  obtain ⟨as, has⟩ := h
  refine ⟨as ++ [a], exec_append_eq_some.mpr ⟨s, has, ?_⟩⟩
  exact exec_cons_eq_some.mpr ⟨t, ha, rfl⟩

/-- `exec_invariant` for runs all of whose steps meet `P`. -/
theorem exec_invariant_along {I : σ → Prop}
    (hstep : ∀ s a t, I s → P s a → step s a = some t → I t)
    (hs : I s) (hP : Along step P s as) (h : exec step s as = some t) : I t := by
  induction as generalizing s with
  | nil =>
    rw [exec_nil, Option.some.injEq] at h
    exact h ▸ hs
  | cons a as ih =>
    obtain ⟨v, hv, hrest⟩ := exec_cons_eq_some.mp h
    obtain ⟨hPa, hPas⟩ := hP v hv
    exact ih (hstep s a v hs hPa hv) hPas hrest

theorem Always.head {I : σ → Prop} (h : Always step I s as) : I s := by
  cases as with
  | nil => exact h
  | cons a as => exact h.1

theorem Always.last {I : σ → Prop} (h : Always step I s as) (hexec : exec step s as = some t) :
    I t := by
  induction as generalizing s with
  | nil =>
    rw [exec_nil, Option.some.injEq] at hexec
    exact hexec ▸ h
  | cons a as ih =>
    obtain ⟨v, hv, hrest⟩ := exec_cons_eq_some.mp hexec
    exact ih (h.2 v hv) hrest

/-- An invariant holds in every state of a run. -/
theorem always_of_invariant {I K : σ → Prop} (hKI : ∀ s, K s → I s)
    (hstep : ∀ s a t, K s → step s a = some t → K t) (hs : K s) : Always step I s as := by
  induction as generalizing s with
  | nil => exact hKI s hs
  | cons a as ih => exact ⟨hKI s hs, fun t ht => ih (hstep s a t hs ht)⟩

/-- What every enabled step preserves, every run preserves. -/
theorem exec_invariant {I : σ → Prop} (hstep : ∀ s a t, I s → step s a = some t → I t)
    (hs : I s) (h : exec step s as = some t) : I t := by
  have halways : Always step I s as := always_of_invariant (fun _ hI => hI) hstep hs
  exact halways.last h

/-- `exec_invariant` for the states reachable from `s₀`. -/
theorem reachable_invariant {I : σ → Prop} {s₀ : σ} (h₀ : I s₀)
    (hstep : ∀ s a t, I s → step s a = some t → I t) (h : Reachable step s₀ s) : I s := by
  obtain ⟨as, has⟩ := h
  exact exec_invariant hstep h₀ has

/-- A run all of whose steps meet `P` stays inside what such steps preserve. -/
theorem always_of_along {I K : σ → Prop} (hKI : ∀ s, K s → I s)
    (hkeep : ∀ s a t, K s → step s a = some t → P s a → K t) (hs : K s)
    (h : Along step P s as) : Always step I s as := by
  induction as generalizing s with
  | nil => exact hKI s hs
  | cons a as ih =>
    refine ⟨hKI s hs, fun t ht => ?_⟩
    obtain ⟨hPa, hPas⟩ := h t ht
    exact ih (hkeep s a t hs ht hPa) hPas

/-- What the state after a step says about the step holds along the run. -/
theorem Always.along {I : σ → Prop} (honly : ∀ s a t, step s a = some t → I t → P s a)
    (h : Always step I s as) : Along step P s as := by
  induction as generalizing s with
  | nil => trivial
  | cons a as ih =>
    intro t ht
    have hrest := h.2 t ht
    exact ⟨honly s a t ht hrest.head, ih hrest⟩

theorem Along.and {Q : σ → α → Prop} (hP : Along step P s as) (hQ : Along step Q s as) :
    Along step (fun s a => P s a ∧ Q s a) s as := by
  induction as generalizing s with
  | nil => trivial
  | cons a as ih =>
    intro t ht
    obtain ⟨hPa, hPas⟩ := hP t ht
    obtain ⟨hQa, hQas⟩ := hQ t ht
    exact ⟨⟨hPa, hQa⟩, ih hPas hQas⟩

/-- A condition that looks at the labels only. -/
theorem along_of_forall {Q : α → Prop} (h : ∀ a ∈ as, Q a) :
    Along step (fun _ a => Q a) s as := by
  induction as generalizing s with
  | nil => trivial
  | cons a as ih =>
    obtain ⟨ha, has⟩ := List.forall_mem_cons.mp h
    exact fun t _ => ⟨ha, ih has⟩

theorem along_append :
    Along step P s (as ++ bs) ↔
      Along step P s as ∧ ∀ t, exec step s as = some t → Along step P t bs := by
  induction as generalizing s with
  | nil => simp [Along]
  | cons a as ih =>
    constructor
    · refine fun h => ⟨fun u hu => ⟨(h u hu).1, (ih.mp (h u hu).2).1⟩, fun t ht => ?_⟩
      obtain ⟨u, hu, hrest⟩ := exec_cons_eq_some.mp ht
      exact (ih.mp (h u hu).2).2 t hrest
    · rintro ⟨hfront, hback⟩ u hu
      refine ⟨(hfront u hu).1, ih.mpr ⟨(hfront u hu).2, fun t ht => ?_⟩⟩
      exact hback t (exec_cons_eq_some.mpr ⟨u, hu, ht⟩)

/-- Under `Q` a run stays in `K`, and there `Q` gives `P` for each step. -/
theorem along_of_along {K : σ → Prop} {Q : σ → α → Prop}
    (hQP : ∀ s a t, K s → step s a = some t → Q s a → P s a)
    (hkeep : ∀ s a t, K s → step s a = some t → Q s a → K t) (hs : K s)
    (h : Along step Q s as) : Along step P s as := by
  induction as generalizing s with
  | nil => trivial
  | cons a as ih =>
    intro t ht
    obtain ⟨hQa, hQas⟩ := h t ht
    exact ⟨hQP s a t hs ht hQa, ih (hkeep s a t hs ht hQa) hQas⟩

/-- Steps that make a measure smaller come to an end. -/
theorem exec_length_le (work : σ → ℕ) (hless : ∀ s a t, P s a → step s a = some t → work t < work s)
    (hP : Along step P s as) (h : exec step s as = some t) : as.length + work t ≤ work s := by
  induction as generalizing s with
  | nil =>
    cases h
    exact Nat.le_of_eq (Nat.zero_add _)
  | cons a as ih =>
    obtain ⟨u, hu, hrest⟩ := exec_cons_eq_some.mp h
    obtain ⟨hPa, hPas⟩ := hP u hu
    have hle := ih hPas hrest
    have hlt := hless s a u hPa hu
    rw [List.length_cons]
    omega

/-- As long as there is such a step, the end can be reached. -/
theorem exists_exec_of_measure {I : σ → Prop} (work : σ → ℕ) (done : σ → Prop)
    (hstep : ∀ s, I s → ¬ done s → ∃ a t, step s a = some t ∧ P s a ∧ I t ∧ work t < work s)
    (hs : I s) : ∃ as t, exec step s as = some t ∧ Along step P s as ∧ I t ∧ done t := by
  induction hn : work s using Nat.strongRecOn generalizing s with
  | ind n ih =>
    by_cases hdone : done s
    · exact ⟨[], s, rfl, trivial, hs, hdone⟩
    · obtain ⟨a, u, hu, hPa, hI, hlt⟩ := hstep s hs hdone
      obtain ⟨as, t, ht, hPas, hIt, hdone⟩ := ih (work u) (hn ▸ hlt) hI rfl
      refine ⟨a :: as, t, exec_cons_eq_some.mpr ⟨u, hu, ht⟩, fun v hv => ?_, hIt, hdone⟩
      obtain rfl : u = v := Option.some.inj (hu.symm.trans hv)
      exact ⟨hPa, hPas⟩

/-- Two conditions on steps that agree wherever a run that has met them so far can be. -/
theorem along_iff_along {K : σ → Prop} {Q : σ → α → Prop}
    (hPQ : ∀ s a t, K s → step s a = some t → (P s a ↔ Q s a))
    (hkeep : ∀ s a t, K s → step s a = some t → Q s a → K t) (hs : K s) :
    Along step P s as ↔ Along step Q s as := by
  constructor
  · apply along_of_along (fun s a t hK ht => (hPQ s a t hK ht).mp) _ hs
    exact fun s a t hK ht hP => hkeep s a t hK ht ((hPQ s a t hK ht).mp hP)
  · exact along_of_along (fun s a t hK ht => (hPQ s a t hK ht).mpr) hkeep hs

/-- Of the steps that meet `Q`, only those that also meet `P` keep `I`. -/
theorem along_of_always {I K : σ → Prop} {Q : σ → α → Prop}
    (hkeep : ∀ s a t, K s → step s a = some t → P s a → K t)
    (honly : ∀ s a t, K s → step s a = some t → Q s a → I t → P s a) (hs : K s)
    (hQ : Along step Q s as) (h : Always step I s as) : Along step P s as := by
  induction as generalizing s with
  | nil => trivial
  | cons a as ih =>
    intro t ht
    obtain ⟨hQa, hQas⟩ := hQ t ht
    have hrest := h.2 t ht
    have hPa : P s a := honly s a t hs ht hQa hrest.head
    exact ⟨hPa, ih (hkeep s a t hs ht hPa) hQas hrest⟩

/-- The general shape of an exactness result over runs. `K` is what `I` strengthens to while
nothing has gone wrong; from a state with `K`, a step that meets `P` keeps `K`, and only such a
step keeps `I`. -/
theorem always_iff_along {I K : σ → Prop} (hKI : ∀ s, K s → I s)
    (hkeep : ∀ s a t, K s → step s a = some t → P s a → K t)
    (honly : ∀ s a t, K s → step s a = some t → I t → P s a) (hs : K s) :
    Always step I s as ↔ Along step P s as :=
  ⟨along_of_always hkeep (fun s a t hK ht _ => honly s a t hK ht) hs
      (along_of_forall (Q := fun _ => True) fun _ _ => trivial),
    always_of_along hKI hkeep hs⟩

end Machine
end Webservers
