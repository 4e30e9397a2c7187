import Mathlib

/-!
# Fixed-width arithmetic

Unsigned machine words are natural numbers reduced modulo their width, and a signed word is the
balanced residue. A bounded big integer is
an `Int` whose operations fail when the result needs more than 256 bits: `none` stands for the
run-time panic.
-/

namespace Machine

/-- Reduction to an unsigned 64-bit word. -/
def wrap64 (n : Nat) : Nat := n % 2 ^ 64

/-- Reduction to an unsigned 32-bit word. -/
def wrap32 (n : Nat) : Nat := n % 2 ^ 32

/-- Reduction to a signed 64-bit word. -/
def int64 (x : Int) : Int := x.bmod (2 ^ 64)

theorem int64_cases {x : Int} (h : 0 ≤ x) :
    int64 x = x ∧ x < 2 ^ 63 ∨ int64 x ≤ x - 2 ^ 64 ∧ 2 ^ 63 ≤ x := by
  unfold int64
  rw [Int.bmod_def]
  split <;> omega

theorem int64_of_lt {x : Int} (h : 0 ≤ x) (hlt : x < 2 ^ 63) : int64 x = x := by
  have hcases := int64_cases h
  omega

theorem foldl_int64_add {xs : List Int} (hnn : ∀ x ∈ xs, 0 ≤ x) {acc : Int} (hacc : 0 ≤ acc)
    (hlt : acc + xs.sum < 2 ^ 63) :
    xs.foldl (fun total x => int64 (total + x)) acc = acc + xs.sum := by
  induction xs generalizing acc with
  | nil => simp
  | cons x xs ih =>
    obtain ⟨hx, hxs⟩ := List.forall_mem_cons.mp hnn
    have hsum : 0 ≤ xs.sum := List.sum_nonneg hxs
    rw [List.sum_cons, ← Int.add_assoc] at hlt ⊢
    rw [List.foldl_cons, int64_of_lt (by omega) (by omega), ih hxs (by omega) hlt]

theorem wrap64_lt (n : Nat) : wrap64 n < 2 ^ 64 := Nat.mod_lt _ (by decide)

theorem wrap64_of_lt {n : Nat} (h : n < 2 ^ 64) : wrap64 n = n := Nat.mod_eq_of_lt h

theorem wrap32_of_lt {n : Nat} (h : n < 2 ^ 32) : wrap32 n = n := Nat.mod_eq_of_lt h

theorem wrap32_le (n : Nat) : wrap32 n ≤ n := Nat.mod_le _ _

/-- The value itself if it fits 256 bits. -/
def int256 (x : Int) : Option Int := if x.natAbs < 2 ^ 256 then some x else none

/-- Bounded addition. -/
def add256 (a b : Int) : Option Int := int256 (a + b)

/-- Bounded multiplication. -/
def mul256 (a b : Int) : Option Int := int256 (a * b)

theorem int256_eq_some {x y : Int} : int256 x = some y ↔ x.natAbs < 2 ^ 256 ∧ x = y := by
  unfold int256
  split_ifs with h
  · exact ⟨fun heq => ⟨h, Option.some.inj heq⟩, fun heq => congrArg some heq.2⟩
  · exact ⟨fun heq => (nomatch heq), fun heq => absurd heq.1 h⟩

theorem add256_eq_some {a b c : Int} :
    add256 a b = some c ↔ (a + b).natAbs < 2 ^ 256 ∧ a + b = c := int256_eq_some

theorem mul256_eq_some {a b c : Int} :
    mul256 a b = some c ↔ (a * b).natAbs < 2 ^ 256 ∧ a * b = c := int256_eq_some

end Machine
