import Limonata.Lib.Machine

/-!
# x/valgrant — decentralization metrics

The metrics are computed in `int64` from the consensus powers in descending order and a parallel mask
of the foundation's validators. The prefix that first exceeds a third of the total is the smallest
coalition that does. The products of the basis points can wrap.
-/

namespace ValGrant

open Machine (int64)

/-- Validators from the top until their power exceeds a third of the total. -/
def nakamotoFrom (total : Int) : Int → List Int → Nat
  | _, [] => 0
  | cum, p :: ps =>
    let cum := int64 (cum + p)
    if total < int64 (cum * 3) then 1 else nakamotoFrom total cum ps + 1

structure Kpis where
  active : Nat
  nakamoto : Nat
  foundationBps : Int
  topBps : Int
  total : Int
  deriving DecidableEq

/-- The powers of the foundation's validators. -/
def foundationPowers : List Int → List Bool → List Int
  | p :: ps, f :: fs => if f then p :: foundationPowers ps fs else foundationPowers ps fs
  | _, _ => []

def sumPowers (powers : List Int) : Int := powers.foldl (fun total p => int64 (total + p)) 0

def bps (power total : Int) : Int := (int64 (power * 10000)).tdiv total

def computeKPIs (powersDesc : List Int) (isFoundation : List Bool) : Kpis :=
  let total := sumPowers powersDesc
  if total ≤ 0 then ⟨powersDesc.length, 0, 0, 0, 0⟩
  else
    { active := powersDesc.length
      nakamoto := nakamotoFrom total 0 powersDesc
      foundationBps := bps (sumPowers (foundationPowers powersDesc isFoundation)) total
      topBps := bps (powersDesc.headD 0) total
      total }

/-! ## Exact metrics -/

/-- The sizes of the coalitions whose power exceeds a third of the total. -/
def coalitionSizes (powers : List Int) : Set Nat :=
  {n | ∃ coalition : List Int, coalition.Sublist powers ∧ coalition.length = n
    ∧ powers.sum < 3 * coalition.sum}

/-- The metrics over exact numbers. Without any power no coalition exceeds a third, and the infimum
is 0. -/
structure Kpis.Exact (powers : List Int) (isFoundation : List Bool) (k : Kpis) : Prop where
  nakamoto : k.nakamoto = sInf (coalitionSizes powers)
  foundation : k.foundationBps
    = 10000 * (foundationPowers powers isFoundation).sum / powers.sum
  top : k.topBps = 10000 * powers.headD 0 / powers.sum
  foundation_range : 0 ≤ k.foundationBps ∧ k.foundationBps ≤ 10000
  top_range : 0 ≤ k.topBps ∧ k.topBps ≤ 10000

/-! ## The smallest coalition -/

/-- In descending order no choice of as many powers exceeds the first ones. -/
theorem sum_le_sum_take {powers coalition : List Int} (h : coalition.Sublist powers)
    (hdesc : powers.Pairwise (· ≥ ·)) (hnn : ∀ p ∈ powers, 0 ≤ p) :
    coalition.sum ≤ (powers.take coalition.length).sum := by
  induction h with
  | slnil => rfl
  | @cons coalition ps p hsub ih =>
    have hrest := ih hdesc.of_cons fun q hq => hnn q (.tail _ hq)
    refine hrest.trans ?_
    cases coalition with
    | nil => simp
    | cons c cs =>
      -- the last power of the prefix is at most the one put in front
      have hlt : cs.length < ps.length := hsub.length_le
      have hlast := List.rel_of_pairwise_cons hdesc (List.getElem_mem hlt)
      simp only [List.length_cons, List.sum_take_succ _ _ hlt, List.take_succ_cons, List.sum_cons]
      omega
  | @cons_cons coalition ps p hsub ih =>
    simpa using ih hdesc.of_cons fun q hq => hnn q (.tail _ hq)

theorem nakamotoFrom_spec {total cum : Int} {powers : List Int} (hnn : ∀ p ∈ powers, 0 ≤ p)
    (hcum : 0 ≤ cum) (hbelow : 3 * cum ≤ total) (hfits : 3 * (cum + powers.sum) < 2 ^ 63)
    (hexceeds : total < 3 * (cum + powers.sum)) :
    total < 3 * (cum + (powers.take (nakamotoFrom total cum powers)).sum)
      ∧ nakamotoFrom total cum powers ≤ powers.length
      ∧ ∀ j < nakamotoFrom total cum powers, 3 * (cum + (powers.take j).sum) ≤ total := by
  induction powers generalizing cum with
  | nil => simp at hexceeds; omega
  | cons p ps ih =>
    have hp : 0 ≤ p := hnn p List.mem_cons_self
    have hps : 0 ≤ ps.sum := List.sum_nonneg fun q hq => hnn q (.tail _ hq)
    rw [List.sum_cons] at hfits hexceeds
    have hadd : int64 (cum + p) = cum + p := Machine.int64_of_lt (by omega) (by omega)
    have hmul : int64 ((cum + p) * 3) = (cum + p) * 3 := Machine.int64_of_lt (by omega) (by omega)
    rw [nakamotoFrom]
    simp only [hadd, hmul]
    split_ifs with hfirst
    · refine ⟨by simp; omega, by simp, fun j hj => ?_⟩
      obtain rfl : j = 0 := by omega
      simpa using hbelow
    · obtain ⟨hover, hlen, hunder⟩ := ih (fun q hq => hnn q (.tail _ hq))
        (Int.add_nonneg hcum hp) (by omega) (by omega) (by omega)
      refine ⟨by simp; omega, by simpa using hlen, fun j hj => ?_⟩
      cases j with
      | zero => simpa using hbelow
      | succ j =>
        have hle := hunder j (by omega)
        simp only [List.take_succ_cons, List.sum_cons]
        omega

theorem nakamoto_isLeast {powers : List Int} (hnn : ∀ p ∈ powers, 0 ≤ p)
    (hdesc : powers.Pairwise (· ≥ ·)) (hpos : 0 < powers.sum) (hfits : 3 * powers.sum < 2 ^ 63) :
    IsLeast (coalitionSizes powers) (nakamotoFrom powers.sum 0 powers) := by
  obtain ⟨hover, hlen, hunder⟩ :=
    nakamotoFrom_spec hnn (le_refl 0) hpos.le (by omega) (show powers.sum < _ by omega)
  rw [Int.zero_add] at hover
  refine ⟨⟨_, List.take_sublist _ _, List.length_take_of_le hlen, hover⟩, ?_⟩
  rintro n ⟨coalition, hsub, rfl, hexceeds⟩
  by_contra hlt
  have hle := hunder _ (Nat.not_le.mp hlt)
  have hsum := sum_le_sum_take hsub hdesc hnn
  omega

/-! ## Basis points -/

/-- A wrapped product is far from the exact one, as the total is at most a sixteenth of the modulus. -/
theorem bps_eq_iff {power total : Int} (hpower : 0 ≤ power) (hpos : 0 < total)
    (htotal : total ≤ (2 ^ 63 - 1) / 8) :
    bps power total = 10000 * power / total ↔ 10000 * power < 2 ^ 63 := by
  unfold bps
  rw [Int.mul_comm power]
  constructor
  · intro heq
    by_contra hlarge
    obtain ⟨-, hfits⟩ | ⟨hwrap, hover⟩ :=
      Machine.int64_cases (show 0 ≤ 10000 * power by omega)
    · exact hlarge hfits
    have hexact : 10000 * power < 10000 * power / total * total + total := by
      have h := Int.lt_ediv_add_one_mul_self (10000 * power) hpos
      rwa [Int.add_mul, Int.one_mul] at h
    rw [← heq] at hexact
    obtain hneg | hnn := Int.lt_or_le (int64 (10000 * power)) 0
    · have hq := Int.tdiv_nonneg (show 0 ≤ -int64 (10000 * power) by omega) hpos.le
      rw [Int.neg_tdiv, Int.neg_nonneg] at hq
      have hmul := mul_nonpos_of_nonpos_of_nonneg hq hpos.le
      omega
    · rw [Int.tdiv_eq_ediv_of_nonneg hnn] at hexact
      have hq := Int.ediv_mul_le (int64 (10000 * power)) hpos.ne'
      omega
  · intro hfits
    rw [Machine.int64_of_lt (by omega) hfits, Int.tdiv_eq_ediv_of_nonneg (by omega)]

theorem bps_range {power total : Int} (hpower : 0 ≤ power) (hle : power ≤ total) :
    0 ≤ 10000 * power / total ∧ 10000 * power / total ≤ 10000 := by
  obtain rfl | hpos := (hpower.trans hle).eq_or_lt
  · simp
  · exact ⟨Int.ediv_nonneg (by omega) hpos.le, Int.ediv_le_of_le_mul hpos (by omega)⟩

theorem foundationPowers_sublist (powers : List Int) (isFoundation : List Bool) :
    (foundationPowers powers isFoundation).Sublist powers := by
  fun_induction foundationPowers powers isFoundation with
  | case1 p ps fs ih => exact ih.cons_cons p
  | case2 p ps f fs hf ih => exact ih.cons p
  | case3 => exact List.nil_sublist _

/-- **The metrics are exact as long as no product wraps.** -/
theorem computeKPIs_exact_iff {powers : List Int} (isFoundation : List Bool)
    (hnn : ∀ p ∈ powers, 0 ≤ p) (hdesc : powers.Pairwise (· ≥ ·))
    (htotal : powers.sum ≤ (2 ^ 63 - 1) / 8) :
    (computeKPIs powers isFoundation).Exact powers isFoundation
      ↔ 10000 * (foundationPowers powers isFoundation).sum < 2 ^ 63
        ∧ 10000 * powers.headD 0 < 2 ^ 63 := by
  have hsub := foundationPowers_sublist powers isFoundation
  have hnnF : ∀ p ∈ foundationPowers powers isFoundation, 0 ≤ p := fun p hp => hnn p (hsub.mem hp)
  have hfound : 0 ≤ (foundationPowers powers isFoundation).sum := List.sum_nonneg hnnF
  have hfoundle := hsub.sum_le_sum hnn
  have htop : 0 ≤ powers.headD 0 ∧ powers.headD 0 ≤ powers.sum := by
    cases powers with
    | nil => simp
    | cons p ps =>
      obtain ⟨hp, hps⟩ := List.forall_mem_cons.mp hnn
      exact ⟨hp, by simpa using List.sum_nonneg hps⟩
  have hsum : sumPowers powers = powers.sum := by
    rw [sumPowers, Machine.foldl_int64_add hnn (le_refl 0) (by omega), Int.zero_add]
  have hsumF : sumPowers (foundationPowers powers isFoundation)
      = (foundationPowers powers isFoundation).sum := by
    rw [sumPowers, Machine.foldl_int64_add hnnF (le_refl 0) (by omega), Int.zero_add]
  unfold computeKPIs
  simp only [hsum, hsumF]
  split_ifs with hzero
  · -- nobody has any power, and no coalition exceeds a third of it
    have hempty : coalitionSizes powers = ∅ := by
      refine Set.eq_empty_of_forall_notMem ?_
      rintro n ⟨coalition, hcoalition, -, hexceeds⟩
      have hle := hcoalition.sum_le_sum hnn
      omega
    obtain ⟨hsumz, hfoundz, htopz⟩ : powers.sum = 0
        ∧ (foundationPowers powers isFoundation).sum = 0 ∧ powers.headD 0 = 0 := by omega
    refine iff_of_true ⟨?_, ?_, ?_, by simp, by simp⟩ (by omega)
    · rw [hempty, Nat.sInf_empty]
    · rw [hfoundz, hsumz, Int.mul_zero, Int.zero_ediv]
    · rw [htopz, hsumz, Int.mul_zero, Int.zero_ediv]
  · have hpos : 0 < powers.sum := by omega
    have hleast := nakamoto_isLeast hnn hdesc hpos (by omega)
    rw [← bps_eq_iff hfound hpos htotal, ← bps_eq_iff htop.1 hpos htotal]
    refine ⟨fun h => ⟨h.foundation, h.top⟩, fun h => ?_⟩
    exact ⟨hleast.csInf_eq.symm, h.1, h.2, h.1 ▸ bps_range hfound hfoundle,
      h.2 ▸ bps_range htop.1 htop.2⟩

theorem computeKPIs_exact_three : (computeKPIs [5, 3, 2] [true]).Exact [5, 3, 2] [true] :=
  (computeKPIs_exact_iff [true] (by decide) (by decide) (by decide)).mpr (by decide)

/-- A single validator of power `2^50`, a thousandth of what is admitted, gets -6384 basis points. -/
theorem computeKPIs_wraps :
    (2 ^ 50 : Int) ≤ (2 ^ 63 - 1) / 8 ∧ (computeKPIs [2 ^ 50] []).topBps = -6384
      ∧ ¬ (computeKPIs [2 ^ 50] []).Exact [2 ^ 50] [] := by
  have htop : (computeKPIs [2 ^ 50] []).topBps = -6384 := by decide +kernel
  refine ⟨by decide, htop, fun h => ?_⟩
  have hrange := h.top_range.1
  omega

end ValGrant
