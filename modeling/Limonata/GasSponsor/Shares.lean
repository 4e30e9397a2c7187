import Limonata.GasSponsor.Escrow

/-!
# Who an escrow belongs to

The escrow of a contract is shared by its sponsors. A reservation is charged to the deposits that are
in the escrow, by whatever rule; what a sponsor deposited, less what was charged to it, is what it may
take back. The store of x/sponsorpool keeps contributions, which reservations do not reduce, and lets a
sponsor withdraw up to its contribution as far as the escrow goes, whoever's deposits are in it.

The two agree while at most one sponsor has a contribution when the escrow is spent, and nobody else
deposits while the escrow falls short of the contributions.
-/

namespace GasSponsor

open EncMempool (Bytes bytesOf)

/-! ## Contributions to one contract -/

namespace Escrows

variable {e : Escrows} {sponsor contract : Bytes} {amt : Nat}

/-- The sum of the contributions to a contract. -/
def contributedTo (e : Escrows) (contract : Bytes) : Nat :=
  e.contribution.totalOn fun k => (ofLex k).2 = contract

theorem contributionOf_fund (j : Bytes) : (e.fund sponsor contract amt).contributionOf j contract
    = e.contributionOf j contract + if j = sponsor then amt else 0 := by
  have hset := e.contribution.amount_setAmount (toLex (sponsor, contract)) (toLex (j, contract))
    (e.contributionOf sponsor contract + amt)
  by_cases hj : j = sponsor
  · subst hj
    rw [if_pos rfl] at hset ⊢
    exact hset
  · rw [if_neg fun h => hj (congrArg Prod.fst (toLex.injective h))] at hset
    rw [if_neg hj]
    exact hset

theorem contributionOf_unfund (hle : amt ≤ e.contributionOf sponsor contract) (j : Bytes) :
    (e.unfund sponsor contract amt).contributionOf j contract + (if j = sponsor then amt else 0)
      = e.contributionOf j contract := by
  have hset := e.contribution.amount_setAmount (toLex (sponsor, contract)) (toLex (j, contract))
    (e.contributionOf sponsor contract - amt)
  by_cases hj : j = sponsor
  · subst hj
    rw [if_pos rfl] at hset ⊢
    exact (congrArg (· + amt) hset).trans (Nat.sub_add_cancel hle)
  · rw [if_neg fun h => hj (congrArg Prod.fst (toLex.injective h))] at hset
    rw [if_neg hj]
    exact hset

theorem contributedTo_set (v : Nat) :
    (e.contribution.setAmount (toLex (sponsor, contract)) v).totalOn
        (fun k => (ofLex k).2 = contract) + e.contributionOf sponsor contract
      = e.contributedTo contract + v := by
  have h := e.contribution.totalOn_setAmount (fun k => (ofLex k).2 = contract)
    (toLex (sponsor, contract)) v
  have hkey : (ofLex (toLex (sponsor, contract))).2 = contract := rfl
  rwa [if_pos hkey, if_pos hkey] at h

theorem contributedTo_fund :
    (e.fund sponsor contract amt).contributedTo contract = e.contributedTo contract + amt := by
  have h : (e.fund sponsor contract amt).contributedTo contract + _ = _ := contributedTo_set _
  omega

theorem contributedTo_unfund (hle : amt ≤ e.contributionOf sponsor contract) :
    (e.unfund sponsor contract amt).contributedTo contract + amt = e.contributedTo contract := by
  have h : (e.unfund sponsor contract amt).contributedTo contract + _ = _ := contributedTo_set _
  omega

theorem contributedTo_eq (honly : ∀ j, j ≠ sponsor → e.contributionOf j contract = 0) :
    e.contributedTo contract = e.contributionOf sponsor contract := by
  refine e.contribution.totalOn_eq_amount rfl fun k hk hne => ?_
  have hkey : k = toLex ((ofLex k).1, contract) := by rw [← hk]; rfl
  rw [hkey]
  exact honly _ fun h => hne (by rw [hkey, h])

end Escrows

/-! ## Histories -/

/-- Parts of a reservation, by the sponsor they are charged to. -/
abbrev Parts := List (Bytes × ℚ)

/-- What of a reservation is charged to a sponsor. -/
def partOf (parts : Parts) (sponsor : Bytes) : ℚ :=
  ((parts.filter fun part => part.1 = sponsor).map Prod.snd).sum

/-- The escrow of one contract, with what each sponsor deposited, was charged and withdrew. -/
structure Shares where
  bank : Bank
  escrows : Escrows
  deposited : Bytes → ℚ
  charged : Bytes → ℚ
  withdrawn : Bytes → ℚ

inductive ShareAction where
  | deposit (payer sponsor : Bytes) (amt : Nat)
  | withdraw (sponsor : Bytes) (amt : Nat)
  /-- A reservation and whom it is charged to. -/
  | reserve (fee : Nat) (parts : Parts)
  /-- Whatever else happens to coins and parameters. -/
  | move (bank : Bank) (params : EscrowParams)

namespace Shares

/-- What is left of the deposits of a sponsor. -/
def unspent (sh : Shares) (sponsor : Bytes) : ℚ :=
  sh.deposited sponsor - sh.charged sponsor - sh.withdrawn sponsor

/-- The reservation is charged to deposits that are in the escrow. -/
@[mk_iff] structure IsCharge (sh : Shares) (fee : Nat) (parts : Parts) : Prop where
  nonneg : ∀ part ∈ parts, 0 ≤ part.2
  sum_eq : (parts.map Prod.snd).sum = fee
  present : ∀ part ∈ parts, partOf parts part.1 ≤ sh.unspent part.1

instance (sh : Shares) (fee : Nat) (parts : Parts) : Decidable (sh.IsCharge fee parts) :=
  decidable_of_iff' _ (sh.isCharge_iff fee parts)

/-- One action on the contract; `none` when it fails. -/
def step (contract : Bytes) (sh : Shares) : ShareAction → Option Shares
  | .deposit payer sponsor amt =>
    (Escrows.depositFrom sh.bank sh.escrows payer sponsor contract amt).toOption.map fun (b, e) =>
      { sh with
        bank := b, escrows := e
        deposited := Function.update sh.deposited sponsor (sh.deposited sponsor + amt) }
  | .withdraw sponsor amt =>
    (Escrows.withdraw sh.bank sh.escrows sponsor contract amt).toOption.map fun (b, e) =>
      { sh with
        bank := b, escrows := e
        withdrawn := Function.update sh.withdrawn sponsor (sh.withdrawn sponsor + amt) }
  | .reserve fee parts =>
    if sh.IsCharge fee parts then
      (sh.escrows.reserve contract fee).map fun e =>
        { sh with
          escrows := e
          charged := fun sponsor => sh.charged sponsor + partOf parts sponsor }
    else none
  | .move bank params => some { sh with bank, escrows := { sh.escrows with params } }

/-- Which actions a run may take. -/
abbrev Allow := Shares → ShareAction → Prop

/-- The runs of allowed actions on a contract. -/
abbrev Runs (contract : Bytes) (allow : Allow) :=
  Relation.ReflTransGen fun sh sh' => ∃ a, allow sh a ∧ step contract sh a = some sh'

/-- Nobody has deposited for the contract. -/
structure Fresh (contract : Bytes) (sh : Shares) : Prop where
  escrow : sh.escrows.escrowOf contract = 0
  contribution : ∀ sponsor, sh.escrows.contributionOf sponsor contract = 0
  deposited : ∀ sponsor, sh.deposited sponsor = 0
  charged : ∀ sponsor, sh.charged sponsor = 0
  withdrawn : ∀ sponsor, sh.withdrawn sponsor = 0

/-- **Sponsors do not meet.** At a reservation at most one sponsor has a contribution. At a deposit the
escrow holds all contributions, or nobody else has one. -/
def Apart (contract : Bytes) : Allow := fun sh a => match a with
  | .reserve _ _ => ∃ sponsor, ∀ j, j ≠ sponsor → sh.escrows.contributionOf j contract = 0
  | .deposit _ sponsor _ =>
    sh.escrows.escrowOf contract = sh.escrows.contributedTo contract
      ∨ ∀ j, j ≠ sponsor → sh.escrows.contributionOf j contract = 0
  | _ => True

/-! ## What keeps sponsors apart -/

/-- Contributions are what is left of deposits. -/
structure Matched (contract : Bytes) (sh : Shares) : Prop where
  escrow : sh.escrows.escrowOf contract = sh.escrows.contributedTo contract
  unspent : ∀ j, sh.unspent j = sh.escrows.contributionOf j contract

/-- One sponsor has all of an escrow that falls short of its contribution. -/
structure Owned (contract sponsor : Bytes) (sh : Shares) : Prop where
  contribution : ∀ j, j ≠ sponsor → sh.escrows.contributionOf j contract = 0
  short : sh.escrows.escrowOf contract ≤ sh.escrows.contributionOf sponsor contract
  unspent : ∀ j, sh.unspent j = if j = sponsor then (sh.escrows.escrowOf contract : ℚ) else 0

def Inv (contract : Bytes) (sh : Shares) : Prop :=
  sh.Matched contract ∨ ∃ sponsor, sh.Owned contract sponsor

variable {contract sponsor payer : Bytes} {sh sh' : Shares} {amt fee : Nat} {parts : Parts}

theorem partOf_cons (part : Bytes × ℚ) (parts : Parts) (j : Bytes) :
    partOf (part :: parts) j = (if part.1 = j then part.2 else 0) + partOf parts j := by
  unfold partOf
  by_cases h : part.1 = j <;> simp [h]

theorem sum_snd_nonneg (hnonneg : ∀ part ∈ parts, 0 ≤ part.2) : 0 ≤ (parts.map Prod.snd).sum := by
  refine List.sum_nonneg fun x hx => ?_
  obtain ⟨part, hpart, rfl⟩ := List.mem_map.mp hx
  exact hnonneg part hpart

theorem partOf_nonneg (hnonneg : ∀ part ∈ parts, 0 ≤ part.2) (j : Bytes) : 0 ≤ partOf parts j :=
  sum_snd_nonneg fun part hpart => hnonneg part (List.mem_filter.mp hpart).1

theorem le_partOf (hnonneg : ∀ part ∈ parts, 0 ≤ part.2) {part : Bytes × ℚ} (hpart : part ∈ parts) :
    part.2 ≤ partOf parts part.1 := by
  refine List.single_le_sum (fun x hx => ?_) _ ?_
  · obtain ⟨p, hp, rfl⟩ := List.mem_map.mp hx
    exact hnonneg p (List.mem_filter.mp hp).1
  · exact List.mem_map_of_mem (List.mem_filter.mpr ⟨hpart, by simp⟩)

theorem partOf_eq_sum (hzero : ∀ part ∈ parts, part.1 ≠ sponsor → part.2 = 0) (j : Bytes) :
    partOf parts j = if j = sponsor then (parts.map Prod.snd).sum else 0 := by
  induction parts with
  | nil => simp [partOf]
  | cons part parts ih =>
    have hhead := hzero part (.head _)
    rw [partOf_cons, ih fun p hp => hzero p (.tail _ hp), List.map_cons, List.sum_cons]
    by_cases hj : j = sponsor
    · subst hj
      by_cases hp : part.1 = j
      · simp [hp]
      · simp [hp, hhead hp]
    · by_cases hp : part.1 = j
      · simp [hp, hj, hhead (hp ▸ hj)]
      · simp [hp, hj]

theorem IsCharge.partOf_eq (h : sh.IsCharge fee parts) (honly : ∀ j, j ≠ sponsor → sh.unspent j = 0)
    (j : Bytes) : partOf parts j = if j = sponsor then (fee : ℚ) else 0 := by
  have hzero : ∀ part ∈ parts, part.1 ≠ sponsor → part.2 = 0 := by
    intro part hpart hne
    have hle := (le_partOf h.nonneg hpart).trans (h.present part hpart)
    rw [honly _ hne] at hle
    exact le_antisymm hle (h.nonneg part hpart)
  rw [partOf_eq_sum hzero, h.sum_eq]

/-! ### Deposits -/

/-- A deposit that went through. -/
structure Deposited (contract sponsor : Bytes) (amt : Nat) (sh sh' : Shares) : Prop where
  escrows : sh'.escrows = sh.escrows.fund sponsor contract amt
  unspent : ∀ j, sh'.unspent j = sh.unspent j + if j = sponsor then (amt : ℚ) else 0

theorem step_deposit (h : step contract sh (.deposit payer sponsor amt) = some sh') :
    Deposited contract sponsor amt sh sh' := by
  obtain ⟨⟨b, e⟩, hdep, rfl⟩ := Option.map_eq_some_iff.mp h
  obtain ⟨-, -, rfl⟩ := Escrows.depositFrom_eq_ok.mp (Check.toOption_eq_some.mp hdep)
  refine ⟨rfl, fun j => ?_⟩
  simp only [unspent, Function.update_apply]
  split_ifs with hj
  · rw [hj]
    ring
  · ring

theorem Matched.deposit (h : sh.Matched contract) (hdep : Deposited contract sponsor amt sh sh') :
    sh'.Matched contract := by
  refine ⟨?_, fun j => ?_⟩
  · rw [hdep.escrows, Escrows.escrowOf_fund, Escrows.contributedTo_fund, if_pos rfl, h.escrow]
  · rw [hdep.unspent, h.unspent, hdep.escrows, Escrows.contributionOf_fund]
    push_cast
    rfl

theorem Owned.deposit (h : sh.Owned contract sponsor) (hdep : Deposited contract sponsor amt sh sh') :
    sh'.Owned contract sponsor := by
  refine ⟨fun j hj => ?_, ?_, fun j => ?_⟩
  · rw [hdep.escrows, Escrows.contributionOf_fund, h.contribution j hj, if_neg hj]
  · rw [hdep.escrows, Escrows.contributionOf_fund, Escrows.escrowOf_fund, if_pos rfl, if_pos rfl]
    exact Nat.add_le_add_right h.short amt
  · rw [hdep.unspent, h.unspent, hdep.escrows, Escrows.escrowOf_fund, if_pos rfl]
    split_ifs
    · push_cast
      rfl
    · exact add_zero 0

/-- An escrow that holds the one contribution there is, is one in which contributions are what is
left. -/
theorem Owned.matched (h : sh.Owned contract sponsor)
    (hfull : sh.escrows.escrowOf contract = sh.escrows.contributionOf sponsor contract) :
    sh.Matched contract := by
  refine ⟨hfull.trans (Escrows.contributedTo_eq h.contribution).symm, fun j => ?_⟩
  rw [h.unspent]
  split_ifs with hj
  · rw [hj, hfull]
  · rw [h.contribution j hj, Nat.cast_zero]

theorem inv_deposit (h : sh.Inv contract) (hallow : Apart contract sh (.deposit payer sponsor amt))
    (hdep : Deposited contract sponsor amt sh sh') : sh'.Inv contract := by
  obtain h | ⟨owner, h⟩ := h
  · exact .inl (h.deposit hdep)
  · by_cases howner : sponsor = owner
    · subst howner
      exact .inr ⟨sponsor, h.deposit hdep⟩
    · -- somebody else deposits: the owner has no claim beyond the escrow
      refine .inl ((h.matched ?_).deposit hdep)
      obtain hfull | honly := hallow
      · rw [hfull, Escrows.contributedTo_eq h.contribution]
      · have hnone := honly owner (Ne.symm howner)
        have hshort := h.short
        omega

/-! ### Withdrawals and reservations -/

/-- A withdrawal that went through. -/
structure Withdrawn (contract sponsor : Bytes) (amt : Nat) (sh sh' : Shares) : Prop where
  pos : amt ≠ 0
  contribution : amt ≤ sh.escrows.contributionOf sponsor contract
  escrow : amt ≤ sh.escrows.escrowOf contract
  escrows : sh'.escrows = sh.escrows.unfund sponsor contract amt
  unspent : ∀ j, sh'.unspent j = sh.unspent j - if j = sponsor then (amt : ℚ) else 0

theorem step_withdraw (h : step contract sh (.withdraw sponsor amt) = some sh') :
    Withdrawn contract sponsor amt sh sh' := by
  obtain ⟨⟨b, e⟩, hwd, rfl⟩ := Option.map_eq_some_iff.mp h
  obtain ⟨hpos, hc, he, -, rfl⟩ := Escrows.withdraw_eq_ok.mp (Check.toOption_eq_some.mp hwd)
  refine ⟨hpos, hc, he, rfl, fun j => ?_⟩
  simp only [unspent, Function.update_apply]
  split_ifs with hj
  · rw [hj]
    ring
  · ring

theorem Matched.withdraw (h : sh.Matched contract) (hwd : Withdrawn contract sponsor amt sh sh') :
    sh'.Matched contract := by
  have hescrow : (sh.escrows.unfund sponsor contract amt).escrowOf contract + _ = _ :=
    Escrows.escrowOf_unfund hwd.escrow contract
  have hsum := Escrows.contributedTo_unfund hwd.contribution
  refine ⟨?_, fun j => ?_⟩
  · rw [hwd.escrows]
    rw [if_pos rfl] at hescrow
    have := h.escrow
    omega
  · have hj := Escrows.contributionOf_unfund hwd.contribution j
    rw [hwd.unspent, h.unspent, hwd.escrows, ← hj]
    push_cast
    ring

theorem Owned.withdraw {owner : Bytes} (h : sh.Owned contract owner)
    (hwd : Withdrawn contract sponsor amt sh sh') : sh'.Owned contract owner := by
  -- nobody else has a contribution to withdraw
  have howner : sponsor = owner := by
    by_contra hne
    have hzero := h.contribution sponsor hne
    have hle := hwd.contribution
    exact hwd.pos (by omega)
  subst howner
  have hescrow : (sh.escrows.unfund sponsor contract amt).escrowOf contract + _ = _ :=
    Escrows.escrowOf_unfund hwd.escrow contract
  rw [if_pos rfl] at hescrow
  have hcontribution := Escrows.contributionOf_unfund hwd.contribution
  refine ⟨fun j hj => ?_, ?_, fun j => ?_⟩
  · have hkeep := hcontribution j
    rw [if_neg hj, h.contribution j hj] at hkeep
    rw [hwd.escrows]
    exact hkeep
  · have hown := hcontribution sponsor
    rw [if_pos rfl] at hown
    rw [hwd.escrows]
    have := h.short
    omega
  · rw [hwd.unspent, h.unspent, hwd.escrows, ← hescrow]
    split_ifs
    · push_cast
      ring
    · ring

/-- A reservation that went through. -/
structure Reserved (contract : Bytes) (fee : Nat) (parts : Parts) (sh sh' : Shares) : Prop where
  charge : sh.IsCharge fee parts
  escrow : fee ≤ sh.escrows.escrowOf contract
  escrows : sh'.escrows = sh.escrows.spend contract fee
  unspent : ∀ j, sh'.unspent j = sh.unspent j - partOf parts j

theorem step_reserve (h : step contract sh (.reserve fee parts) = some sh') :
    Reserved contract fee parts sh sh' := by
  unfold step at h
  simp only at h
  split_ifs at h with hcharge
  obtain ⟨e, he, rfl⟩ := Option.map_eq_some_iff.mp h
  obtain ⟨hcovers, rfl⟩ := Escrows.reserve_eq_some.mp he
  refine ⟨hcharge, hcovers.2.2.2, rfl, fun j => ?_⟩
  simp only [unspent]
  ring

theorem owned_of_reserved {owner : Bytes} (hres : Reserved contract fee parts sh sh')
    (honly : ∀ j, j ≠ owner → sh.escrows.contributionOf j contract = 0)
    (hshort : sh.escrows.escrowOf contract ≤ sh.escrows.contributionOf owner contract)
    (hunspent : ∀ j, sh.unspent j = if j = owner then (sh.escrows.escrowOf contract : ℚ) else 0) :
    sh'.Owned contract owner := by
  have hescrow := Escrows.escrowOf_spend hres.escrow contract
  rw [if_pos rfl] at hescrow
  have honlyOwner : ∀ j, j ≠ owner → sh.unspent j = 0 := fun j hj => by rw [hunspent, if_neg hj]
  have hpart := hres.charge.partOf_eq honlyOwner
  refine ⟨?_, ?_, fun j => ?_⟩
  · rw [hres.escrows]
    exact honly
  · rw [hres.escrows]
    exact le_trans (by omega) hshort
  · rw [hres.unspent, hunspent, hpart, hres.escrows, ← hescrow]
    split_ifs
    · push_cast
      ring
    · ring

theorem inv_reserve (h : sh.Inv contract) (hallow : Apart contract sh (.reserve fee parts))
    (hres : Reserved contract fee parts sh sh') : sh'.Inv contract := by
  obtain h | ⟨owner, h⟩ := h
  · obtain ⟨owner, honly⟩ := hallow
    have hfull : sh.escrows.escrowOf contract = sh.escrows.contributionOf owner contract :=
      h.escrow.trans (Escrows.contributedTo_eq honly)
    refine .inr ⟨owner, owned_of_reserved hres honly hfull.le fun j => ?_⟩
    rw [h.unspent]
    split_ifs with hj
    · rw [hj, hfull]
    · rw [honly j hj, Nat.cast_zero]
  · exact .inr ⟨owner, owned_of_reserved hres h.contribution h.short h.unspent⟩

/-- **Step.** -/
theorem inv_step {a : ShareAction} (h : sh.Inv contract) (hallow : Apart contract sh a)
    (hstep : step contract sh a = some sh') : sh'.Inv contract := by
  cases a with
  | deposit payer sponsor amt => exact inv_deposit h hallow (step_deposit hstep)
  | withdraw sponsor amt =>
    obtain h | ⟨owner, h⟩ := h
    · exact .inl (h.withdraw (step_withdraw hstep))
    · exact .inr ⟨owner, h.withdraw (step_withdraw hstep)⟩
  | reserve fee parts => exact inv_reserve h hallow (step_reserve hstep)
  | move bank params =>
    cases hstep
    obtain h | ⟨owner, h⟩ := h
    · exact .inl ⟨h.escrow, h.unspent⟩
    · exact .inr ⟨owner, h.contribution, h.short, h.unspent⟩

theorem Inv.unspent_nonneg (h : sh.Inv contract) (j : Bytes) : 0 ≤ sh.unspent j := by
  obtain h | ⟨owner, h⟩ := h
  · rw [h.unspent]
    exact Nat.cast_nonneg _
  · rw [h.unspent]
    split_ifs
    · exact Nat.cast_nonneg _
    · exact le_rfl

/-- An empty escrow holds nothing of anybody. -/
theorem Inv.unspent_eq_zero (h : sh.Inv contract) (hzero : sh.escrows.escrowOf contract = 0) (j : Bytes) :
    sh.unspent j = 0 := by
  obtain h | ⟨owner, h⟩ := h
  · have hle : sh.escrows.contributionOf j contract ≤ sh.escrows.contributedTo contract :=
      sh.escrows.contribution.amount_le_totalOn rfl
    have hsum := h.escrow
    rw [h.unspent, Nat.cast_eq_zero]
    omega
  · rw [h.unspent, hzero, Nat.cast_zero, ite_self]

/-- The one contributor can be charged whatever the escrow covers. -/
theorem Inv.exists_charge (h : sh.Inv contract) (hallow : Apart contract sh (.reserve fee parts))
    (hfee : fee ≤ sh.escrows.escrowOf contract) : ∃ parts, sh.IsCharge fee parts := by
  have hcast : (fee : ℚ) ≤ sh.escrows.escrowOf contract := Nat.cast_le.mpr hfee
  have howner : ∃ owner, sh.unspent owner = sh.escrows.escrowOf contract := by
    obtain h | ⟨owner, h⟩ := h
    · obtain ⟨owner, honly⟩ := hallow
      refine ⟨owner, ?_⟩
      rw [h.unspent, h.escrow, Escrows.contributedTo_eq honly]
    · refine ⟨owner, ?_⟩
      rw [h.unspent, if_pos rfl]
  obtain ⟨owner, howner⟩ := howner
  refine ⟨[(owner, (fee : ℚ))], ⟨?_, ?_, ?_⟩⟩
  · simp
  · simp
  · simpa [partOf, howner] using hcast

theorem Fresh.inv (h : sh.Fresh contract) : sh.Inv contract := by
  refine .inl ⟨?_, fun j => ?_⟩
  · rw [h.escrow, Escrows.contributedTo_eq (fun j _ => h.contribution j), h.contribution contract]
  · rw [unspent, h.deposited, h.charged, h.withdrawn, h.contribution, Nat.cast_zero, sub_zero, sub_zero]

/-- **Runs.** -/
theorem inv_runs (h : sh.Inv contract) (hrun : Runs contract (Apart contract) sh sh') :
    sh'.Inv contract :=
  Reach.run_keeps (fun _ _ ⟨_, hallow, hstep⟩ h => inv_step h hallow hstep) hrun h

/-! ## Rules for charging

A list of lots, oldest first, says whose deposits are in the escrow. -/

/-- Use up the oldest lots. -/
def oldestFirst : Parts → ℚ → Parts
  | [], _ => []
  | (sponsor, lot) :: lots, fee => (sponsor, min lot fee) :: oldestFirst lots (fee - min lot fee)

/-- Use the same part of every lot. -/
def proportionally (lots : Parts) (fee : ℚ) : Parts :=
  lots.map fun (sponsor, lot) => (sponsor, lot * (fee / (lots.map Prod.snd).sum))

variable {lots : Parts}

/-! ## Withdrawals -/

/-- Some deposit for a sponsor. -/
def DepositsFor (sponsor : Bytes) : ShareAction → Prop
  | .deposit _ s _ => s = sponsor
  | _ => False

theorem unspent_le {a : ShareAction} (hstep : step contract sh a = some sh')
    (hnone : ¬ DepositsFor sponsor a) : sh'.unspent sponsor ≤ sh.unspent sponsor := by
  cases a with
  | deposit payer s amt =>
    rw [(step_deposit hstep).unspent, if_neg fun h => hnone h.symm, add_zero]
  | withdraw s amt =>
    rw [(step_withdraw hstep).unspent, sub_le_self_iff]
    split_ifs
    · exact Nat.cast_nonneg amt
    · exact le_rfl
  | reserve fee parts =>
    have hres := step_reserve hstep
    rw [hres.unspent, sub_le_self_iff]
    exact partOf_nonneg hres.charge.nonneg sponsor
  | move bank params =>
    cases hstep
    exact le_rfl

/-- A sponsor with nothing left cannot withdraw. -/
theorem Inv.withdraw_ne_ok (h : sh.Inv contract) (hnone : sh.unspent sponsor ≤ 0) (r : Bank × Escrows) :
    Escrows.withdraw sh.bank sh.escrows sponsor contract amt ≠ .ok r := by
  intro hok
  -- the withdrawal would be a step to a state in which the sponsor owes
  obtain ⟨sh', hstep⟩ : ∃ sh', step contract sh (.withdraw sponsor amt) = some sh' := by
    rw [step, hok]
    exact ⟨_, rfl⟩
  have hwd := step_withdraw hstep
  have hallow : Apart contract sh (.withdraw sponsor amt) := trivial
  have hafter := (inv_step h hallow hstep).unspent_nonneg sponsor
  rw [hwd.unspent, if_pos rfl] at hafter
  have hpos : (0 : ℚ) < amt := Nat.cast_pos.mpr (Nat.pos_of_ne_zero hwd.pos)
  linarith

/-- **Sponsors keep their deposits.** In every run in which sponsors do not meet, no sponsor withdraws
more than its deposits less what was charged to them. Once the escrow is empty a sponsor withdraws
nothing until it deposits again. What the escrow covers can always be charged to somebody. -/
theorem withdrawn_le_unspent (hfresh : sh.Fresh contract)
    (hrun : Runs contract (Apart contract) sh sh') :
    (∀ sponsor, sh'.withdrawn sponsor ≤ sh'.deposited sponsor - sh'.charged sponsor)
    ∧ (sh'.escrows.escrowOf contract = 0 → ∀ sponsor sh'',
        Runs contract (fun sh a => Apart contract sh a ∧ ¬ DepositsFor sponsor a) sh' sh'' →
        ∀ amt r, Escrows.withdraw sh''.bank sh''.escrows sponsor contract amt ≠ .ok r)
    ∧ ∀ fee parts, Apart contract sh' (.reserve fee parts) → sh'.escrows.Covers contract fee →
        ∃ parts, sh'.IsCharge fee parts := by
  have hinv := inv_runs hfresh.inv hrun
  refine ⟨fun sponsor => ?_, fun hzero sponsor sh'' hrest amt r => ?_, fun fee parts hallow hcovers => ?_⟩
  · exact sub_nonneg.mp (hinv.unspent_nonneg sponsor)
  · have hempty : sh'.unspent sponsor ≤ 0 := (hinv.unspent_eq_zero hzero sponsor).le
    have hkeep : sh''.Inv contract ∧ sh''.unspent sponsor ≤ 0 := by
      refine Reach.run_keeps (I := fun sh : Shares => sh.Inv contract ∧ sh.unspent sponsor ≤ 0) ?_ hrest
        ⟨hinv, hempty⟩
      rintro s s' ⟨a, ⟨hallow, hnone⟩, hstep⟩ ⟨h, hle⟩
      exact ⟨inv_step h hallow hstep, (unspent_le hstep hnone).trans hle⟩
    exact hkeep.1.withdraw_ne_ok hkeep.2 r
  · exact hinv.exists_charge hallow hcovers.2.2.2

/-- Deposits are for one sponsor. -/
def ByOne (sponsor : Bytes) : Allow := fun _ a => ∀ payer s amt, a = .deposit payer s amt → s = sponsor

instance (sponsor : Bytes) (sh : Shares) (a : ShareAction) : Decidable (ByOne sponsor sh a) :=
  match a with
  | .deposit payer s amt =>
    decidable_of_iff (s = sponsor)
      ⟨fun h _ _ _ heq => by cases heq; exact h, fun h => h payer s amt rfl⟩
  | .withdraw .. => isTrue nofun
  | .reserve .. => isTrue nofun
  | .move .. => isTrue nofun

/-- Nobody else has a contribution. -/
def Only (contract sponsor : Bytes) (sh : Shares) : Prop :=
  ∀ j, j ≠ sponsor → sh.escrows.contributionOf j contract = 0

theorem Only.apart {a : ShareAction} (honly : sh.Only contract sponsor) (hallow : ByOne sponsor sh a) :
    Apart contract sh a := by
  cases a with
  | deposit payer owner amt =>
    obtain rfl : owner = sponsor := hallow payer owner amt rfl
    exact .inr honly
  | withdraw owner amt => trivial
  | reserve fee parts => exact ⟨sponsor, honly⟩
  | move bank params => trivial

theorem Only.step {a : ShareAction} (honly : sh.Only contract sponsor) (hallow : ByOne sponsor sh a)
    (hstep : step contract sh a = some sh') : sh'.Only contract sponsor := by
  intro j hj
  cases a with
  | deposit payer owner amt =>
    obtain rfl : owner = sponsor := hallow payer owner amt rfl
    rw [(step_deposit hstep).escrows, Escrows.contributionOf_fund, if_neg hj, honly j hj]
  | withdraw owner amt =>
    have hwd := step_withdraw hstep
    have hsum := Escrows.contributionOf_unfund hwd.contribution j
    rw [honly j hj] at hsum
    rw [hwd.escrows]
    exact (Nat.add_eq_zero_iff.mp hsum).1
  | reserve fee parts =>
    rw [(step_reserve hstep).escrows]
    exact honly j hj
  | move bank params =>
    cases hstep
    exact honly j hj

/-- One sponsor never meets another. -/
theorem runs_byOne (hfresh : sh.Fresh contract) (hrun : Runs contract (ByOne sponsor) sh sh') :
    Runs contract (Apart contract) sh sh' := by
  refine Reach.run_lift (I := Only contract sponsor) ?_ hrun fun j _ => hfresh.contribution j
  rintro s s' ⟨a, hallow, hstep⟩ honly
  exact ⟨⟨a, honly.apart hallow, hstep⟩, honly.step hallow hstep⟩

/-- A contract nobody has deposited for, and what accounts hold. -/
def start (balance : Account → Nat) : Shares where
  bank := { balance, locked := fun _ => 0, virtualFees := 0 }
  escrows := { params := ⟨true, none⟩, escrow := .empty, contribution := .empty }
  deposited := 0
  charged := 0
  withdrawn := 0

theorem fresh_start (balance : Account → Nat) : (start balance).Fresh contract :=
  ⟨rfl, fun _ => rfl, fun _ => rfl, fun _ => rfl, fun _ => rfl⟩

open Sample

/-- Two accounts that hold coins. -/
def held : Account → Nat := fun acc =>
  if acc = .user alice ∨ acc = .user bob then 100 else 0

/-- A sponsor takes back what was not spent, and then has nothing to take. -/
theorem withdrawn_le_unspent_single : ∃ sh', Runs app (Apart app) (start held) sh'
    ∧ (sh'.withdrawn alice = 60 ∧ sh'.charged alice = 40
      ∧ sh'.escrows.contributionOf alice app = 40
      ∧ sh'.escrows.escrowOf app = 0)
    ∧ sh'.withdrawn alice ≤ sh'.deposited alice - sh'.charged alice
    ∧ ∀ r, Escrows.withdraw sh'.bank sh'.escrows alice app 40 ≠ .ok r := by
  have hreach : ∃ sh', Runs app (ByOne alice) (start held) sh'
      ∧ sh'.withdrawn alice = 60 ∧ sh'.charged alice = 40
      ∧ sh'.escrows.contributionOf alice app = 40
      ∧ sh'.escrows.escrowOf app = 0 :=
    Reach.exists_run [.deposit alice alice 100, .reserve 40 [(alice, 40)],
      .withdraw alice 60] (by decide +kernel)
  obtain ⟨sh', hrun, hsh'⟩ := hreach
  have hrun' := runs_byOne (fresh_start held) hrun
  obtain ⟨hle, hempty, -⟩ := withdrawn_le_unspent (fresh_start held) hrun'
  exact ⟨sh', hrun', hsh', hle alice, hempty hsh'.2.2.2 alice sh' .refl 40⟩

/-- A sponsor whose deposit was spent on gas withdraws the deposit of another. -/
theorem spent_deposit_withdrawn : ∃ sh', Runs app (fun _ _ => True) (start held) sh'
    ∧ (sh'.deposited alice = 100 ∧ sh'.charged alice = 100
      ∧ sh'.withdrawn alice = 100)
    ∧ (sh'.deposited bob = 100 ∧ sh'.charged bob = 0 ∧ sh'.withdrawn bob = 0
      ∧ sh'.escrows.escrowOf app = 0) :=
  Reach.exists_run [.deposit alice alice 100, .reserve 100 [(alice, 100)],
    -- the pool pays the fee, and the escrow is empty
    .move
      { balance := fun acc => if acc = .user bob ∨ acc = .feeCollector then 100 else 0
        locked := fun _ => 0
        virtualFees := 0 }
      ⟨true, none⟩,
    .deposit bob bob 100, .withdraw alice 100] (by decide +kernel)

end Shares

end GasSponsor
