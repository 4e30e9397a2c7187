import Mathlib

/-!
# Stacks of cached stores

A store with a stack of caches over it: a snapshot pushes one, writes go to the top, a revert pops,
and a commit writes all of them through. A cached store is represented by its contents, that is by
what is read through it: the store below does not change while it is there.
-/

universe u

/-- A store and the caches over it, the newest first. -/
structure CacheStack (S : Type u) where
  initial : S
  layers : List S

namespace CacheStack

variable {S : Type u}

/-- What is read through the top of the stack. -/
def current (c : CacheStack S) : S := c.layers.headD c.initial

/-- Change what is at the top. -/
def modify (c : CacheStack S) (f : S → S) : CacheStack S :=
  match c.layers with
  | [] => { c with initial := f c.initial }
  | top :: rest => { c with layers := f top :: rest }

/-- Push a cache; its index is the height of the stack before. -/
def snapshot (c : CacheStack S) : CacheStack S := { c with layers := c.current :: c.layers }

/-- Pop all caches from an index on; `none` if the index is out of bounds. -/
def revertTo (c : CacheStack S) (target : Nat) : Option (CacheStack S) :=
  if target < c.layers.length then
    some { c with layers := c.layers.drop (c.layers.length - target) }
  else none

/-- Write all caches through; the contents reach the store below the stack. -/
def commit (c : CacheStack S) : CacheStack S := ⟨c.current, []⟩

variable (c : CacheStack S) (f : S → S)

@[simp] theorem current_modify : (c.modify f).current = f c.current := by
  unfold modify current
  cases c.layers <;> rfl

@[simp] theorem current_snapshot : c.snapshot.current = c.current := rfl

@[simp] theorem length_snapshot : c.snapshot.layers.length = c.layers.length + 1 := rfl

@[simp] theorem length_modify : (c.modify f).layers.length = c.layers.length := by
  unfold modify
  cases c.layers <;> rfl

theorem snapshot_modify : c.snapshot.modify f = ⟨c.initial, f c.current :: c.layers⟩ := rfl

theorem revertTo_eq_some {target : Nat} {c' : CacheStack S} :
    c.revertTo target = some c' ↔ target < c.layers.length
      ∧ c' = ⟨c.initial, c.layers.drop (c.layers.length - target)⟩ := by
  unfold revertTo
  split_ifs with h
  · simp [h, eq_comm]
  · simp [h]

/-- A revert to the last snapshot undoes everything since. -/
theorem revertTo_snapshot : (c.snapshot.modify f).revertTo c.layers.length = some c := by
  rw [snapshot_modify, revertTo_eq_some]
  simp

theorem revertTo_modify {target : Nat} (h : target < c.layers.length) :
    (c.modify f).revertTo target = c.revertTo target := by
  obtain ⟨initial, layers⟩ := c
  cases layers with
  | nil => exact absurd h (by simp)
  | cons top rest =>
    unfold modify revertTo
    have hdrop : (top :: rest).length - target = (rest.length - target) + 1 := by
      simp only [List.length_cons] at h ⊢
      omega
    simp only [List.length_cons] at h hdrop ⊢
    rw [if_pos h, if_pos h]
    simp only [hdrop, List.drop_succ_cons]

/-! ## Stacks that agree below a height -/

/-- `c'` is as high as `c` and has the same below a height; what is above may differ. -/
structure SameBelow (height : Nat) (c c' : CacheStack S) : Prop where
  initial : c'.initial = c.initial
  length : c'.layers.length = c.layers.length
  drop : c'.layers.drop (c'.layers.length - height) = c.layers.drop (c.layers.length - height)

variable {c} {c' c'' : CacheStack S} {height : Nat}

theorem SameBelow.refl : c.SameBelow height c := ⟨rfl, rfl, rfl⟩

theorem SameBelow.trans (h : c.SameBelow height c') (h' : c'.SameBelow height c'') :
    c.SameBelow height c'' :=
  ⟨h'.initial.trans h.initial, h'.length.trans h.length, h'.drop.trans h.drop⟩

theorem SameBelow.eq (h : c.SameBelow c.layers.length c') : c' = c := by
  obtain ⟨initial, layers⟩ := c
  obtain ⟨initial', layers'⟩ := c'
  obtain ⟨hinitial, hlength, hdrop⟩ := h
  simp only [hlength, Nat.sub_self, List.drop_zero] at hinitial hdrop
  rw [hinitial, hdrop]

theorem sameBelow_modify (h : height < c.layers.length) : c.SameBelow height (c.modify f) := by
  obtain ⟨initial, layers⟩ := c
  cases layers with
  | nil => exact absurd h (Nat.not_lt_zero _)
  | cons top rest =>
    have hdrop : (top :: rest).length - height = (rest.length - height) + 1 := by
      simp only [List.length_cons] at h ⊢
      omega
    refine ⟨rfl, rfl, ?_⟩
    show List.drop ((top :: rest).length - height) (f top :: rest) = _
    rw [hdrop, List.drop_succ_cons, List.drop_succ_cons]

theorem SameBelow.revertTo (h : (c.snapshot.modify f).SameBelow height c')
    (hheight : height ≤ c.layers.length) :
    ∃ c'', c'.revertTo c.layers.length = some c'' ∧ c.SameBelow height c'' := by
  obtain ⟨initial, layers⟩ := c'
  obtain ⟨hinitial, hlength, hdrop⟩ := h
  cases layers with
  | nil => cases hlength
  | cons top rest =>
    have hrest : rest.length = c.layers.length := Nat.succ.inj hlength
    have hsub : c.layers.length + 1 - height = (c.layers.length - height) + 1 := by omega
    refine ⟨⟨initial, rest⟩, ?_, hinitial, hrest, ?_⟩
    · rw [revertTo_eq_some]
      simp [hrest]
    · rw [snapshot_modify] at hdrop
      simp only [List.length_cons, hrest, hsub, List.drop_succ_cons] at hdrop
      show rest.drop (rest.length - height) = _
      rw [hrest]
      exact hdrop

end CacheStack
