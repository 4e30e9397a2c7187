import Mathlib

/-!
# Reachability and invariants

A system is a one-step relation; a run is its reflexive-transitive closure. The rules here turn
"every step keeps `I`" into "every run keeps `I`", and a loop over a list into a run.
-/

namespace Reach

open Relation (ReflTransGen)

variable {σ α : Type*} {R : σ → σ → Prop} {I : σ → Prop}

/-- **Invariant rule.** What every step keeps, every run keeps. -/
theorem run_keeps (hstep : ∀ s s', R s s' → I s → I s') {s s' : σ} (hrun : ReflTransGen R s s')
    (hs : I s) : I s' := by
  induction hrun with
  | refl => exact hs
  | tail _ h ih => exact hstep _ _ h ih

theorem run_lift {R' : σ → σ → Prop} (hstep : ∀ s s', R s s' → I s → R' s s' ∧ I s') {s s' : σ}
    (hrun : ReflTransGen R s s') (hs : I s) : ReflTransGen R' s s' := by
  induction hrun using ReflTransGen.head_induction_on with
  | refl => exact .refl
  | head h _ ih =>
    obtain ⟨hR, hI⟩ := hstep _ _ h hs
    exact .head hR (ih hI)

theorem foldl_run {f : σ → α → σ} {as : List α} {s : σ}
    (hI : ∀ s, ∀ a ∈ as, I s → I (f s a)) (hR : ∀ s, ∀ a ∈ as, I s → ReflTransGen R s (f s a))
    (hs : I s) : ReflTransGen R s (as.foldl f s) := by
  induction as generalizing s with
  | nil => exact .refl
  | cons a as ih =>
    have hhead : ReflTransGen R s (f s a) := hR s a List.mem_cons_self hs
    have htail : ReflTransGen R (f s a) (as.foldl f (f s a)) :=
      ih (fun s b hb => hI s b (.tail _ hb)) (fun s b hb => hR s b (.tail _ hb))
        (hI s a List.mem_cons_self hs)
    exact hhead.trans htail

theorem foldl_keeps {f : σ → α → σ} {as : List α} {s : σ}
    (hI : ∀ s, ∀ a ∈ as, I s → I (f s a)) (hs : I s) : I (as.foldl f s) := by
  induction as generalizing s with
  | nil => exact hs
  | cons a as ih =>
    exact ih (fun s b hb => hI s b (.tail _ hb)) (hI s a List.mem_cons_self hs)

/-- Actions one after the other; `none` when one is not allowed or fails. -/
def play (allow : σ → α → Prop) [∀ s a, Decidable (allow s a)] (step : σ → α → Option σ) (s : σ) :
    List α → Option σ
  | [] => some s
  | a :: as => if allow s a then (step s a).bind fun s => play allow step s as else none

theorem exists_run {allow : σ → α → Prop} [∀ s a, Decidable (allow s a)] {step : σ → α → Option σ}
    {s : σ} (as : List α) {P : σ → Prop} [DecidablePred P]
    (h : (play allow step s as).any (fun s' => P s') = true) :
    ∃ s', ReflTransGen (fun s s' => ∃ a, allow s a ∧ step s a = some s') s s' ∧ P s' := by
  induction as generalizing s with
  | nil => exact ⟨s, .refl, of_decide_eq_true h⟩
  | cons a as ih =>
    unfold play at h
    split_ifs at h with hallow
    · cases hstep : step s a with
      | none => simp [hstep] at h
      | some s₁ =>
        rw [hstep, Option.bind_some] at h
        obtain ⟨s', hrun, hP⟩ := ih h
        exact ⟨s', .head ⟨a, hallow, hstep⟩ hrun, hP⟩
    · simp at h

end Reach
