import Mathlib

/-!
# Sequences of checks

A validator is a chain of early returns: each check either rejects with a message or falls
through. `rejectIf` is one check; the lemmas turn "the chain accepts" into the conjunction of
what the checks let through, so a proof about a validator never unfolds its control flow.
-/

/-- Reject with a message when `c` holds, fall through otherwise. -/
def rejectIf {ε : Type} (c : Prop) [Decidable c] (msg : ε) : Except ε Unit :=
  if c then .error msg else .ok ()

namespace Check

variable {ε α β : Type}

@[simp] theorem rejectIf_eq_ok {c : Prop} [Decidable c] {msg : ε} {u : Unit} :
    rejectIf c msg = .ok u ↔ ¬ c := by
  unfold rejectIf
  split_ifs with h <;> simp [h]

@[simp] theorem bind_unit_eq_ok {x : Except ε Unit} {f : Unit → Except ε β} {b : β} :
    (x >>= f) = .ok b ↔ x = .ok () ∧ f () = .ok b := by
  cases x with
  | error e => exact ⟨fun h => (nomatch h), fun h => (nomatch h.1)⟩
  | ok u => exact ⟨fun h => ⟨rfl, h⟩, fun h => h.2⟩

theorem toOption_eq_some {x : Except ε α} {a : α} : x.toOption = some a ↔ x = .ok a := by
  cases x with
  | error e => exact ⟨nofun, nofun⟩
  | ok b => simp [Except.toOption]

/-- Run a check on every element with its position, stopping at the first rejection. -/
def checkAll (f : Nat → α → Except ε Unit) : Nat → List α → Except ε Unit
  | _, [] => .ok ()
  | i, a :: as => f i a >>= fun _ => checkAll f (i + 1) as

theorem checkAll_sound {f : Nat → α → Except ε Unit} {as : List α} {i : Nat}
    (h : checkAll f i as = .ok ()) : ∀ a ∈ as, ∃ j, f j a = .ok () := by
  induction as generalizing i with
  | nil => simp
  | cons a as ih =>
    simp only [checkAll, bind_unit_eq_ok] at h
    exact List.forall_mem_cons.mpr ⟨⟨i, h.1⟩, ih h.2⟩

theorem checkAll_complete {f : Nat → α → Except ε Unit} {as : List α} {i : Nat}
    (h : ∀ a ∈ as, ∀ j, f j a = .ok ()) : checkAll f i as = .ok () := by
  induction as generalizing i with
  | nil => rfl
  | cons a as ih =>
    obtain ⟨ha, has⟩ := List.forall_mem_cons.mp h
    simp only [checkAll, bind_unit_eq_ok]
    exact ⟨ha i, ih has⟩

/-- Check every element with its position and refuse a repeated key: `pre` runs before the check
for a repetition and `post` after it. -/
def checkDistinct {κ : Type} [DecidableEq κ] (key : α → κ) (pre : Nat → α → Except ε Unit)
    (dup : Nat → α → ε) (post : Nat → α → Except ε Unit) :
    Nat → List κ → List α → Except ε Unit
  | _, _, [] => .ok ()
  | i, seen, a :: as =>
    pre i a >>= fun _ => rejectIf (key a ∈ seen) (dup i a) >>= fun _ => post i a >>= fun _ =>
      checkDistinct key pre dup post (i + 1) (key a :: seen) as

section Distinct

variable {κ : Type} [DecidableEq κ] {key : α → κ} {pre post : Nat → α → Except ε Unit}
  {dup : Nat → α → ε}

theorem checkDistinct_sound {as : List α} {i : Nat} {seen : List κ}
    (h : checkDistinct key pre dup post i seen as = .ok ()) :
    (as.map key).Nodup ∧ (∀ a ∈ as, key a ∉ seen)
      ∧ ∀ a ∈ as, ∃ j, pre j a = .ok () ∧ post j a = .ok () := by
  induction as generalizing i seen with
  | nil => simp
  | cons a as ih =>
    simp only [checkDistinct, bind_unit_eq_ok, rejectIf_eq_ok] at h
    obtain ⟨hpre, hnew, hpost, hrest⟩ := h
    obtain ⟨hnodup, hseen, hall⟩ := ih hrest
    refine ⟨?_, ?_, ?_⟩
    · refine List.nodup_cons.mpr ⟨fun hmem => ?_, hnodup⟩
      obtain ⟨b, hb, hkey⟩ := List.mem_map.mp hmem
      exact hseen b hb (hkey ▸ List.mem_cons_self)
    · exact List.forall_mem_cons.mpr ⟨hnew, fun b hb hmem => hseen b hb (.tail _ hmem)⟩
    · exact List.forall_mem_cons.mpr ⟨⟨i, hpre, hpost⟩, hall⟩

theorem checkDistinct_complete {as : List α} {i : Nat} {seen : List κ}
    (hnodup : (as.map key).Nodup) (hseen : ∀ a ∈ as, key a ∉ seen)
    (hall : ∀ a ∈ as, ∀ j, pre j a = .ok () ∧ post j a = .ok ()) :
    checkDistinct key pre dup post i seen as = .ok () := by
  induction as generalizing i seen with
  | nil => rfl
  | cons a as ih =>
    obtain ⟨hnew, hnodup⟩ := List.nodup_cons.mp hnodup
    obtain ⟨hfresh, hseen⟩ := List.forall_mem_cons.mp hseen
    obtain ⟨ha, hall⟩ := List.forall_mem_cons.mp hall
    simp only [checkDistinct, bind_unit_eq_ok, rejectIf_eq_ok]
    refine ⟨(ha i).1, hfresh, (ha i).2, ih hnodup (fun b hb hmem => ?_) hall⟩
    cases List.mem_cons.mp hmem with
    | inl heq => exact hnew (heq ▸ List.mem_map_of_mem hb)
    | inr hold => exact hseen b hb hold

end Distinct

end Check
