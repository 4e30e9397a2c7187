import Limonata.Lib.Check
import Limonata.EncMempool.Crypto

/-!
# x/encmempool — the params: defaults, derived caps, validation

`Params.Validate` is the single gate of every params write, at genesis and by governance. The
derived caps (`effectiveShareBudget`, `effectiveMaxMembers`, `voteExtShareCap`,
`effectiveMaxVerifyOps`) are what the rest of the module sizes itself by.
-/

namespace EncMempool

variable {X : External} {p : Params}

open Check

/-! ## Bounds -/

def minDkgWindowBlocks : Nat := 1
def maxDkgWindowBlocks : Nat := 10000000
def maxCommitRevealWindow : Nat := 10000000
def maxDkgPhaseWindow : Nat := 600
def maxInFlightCeiling : Nat := 2 ^ 40
def maxDriftBps : Nat := 10000

def defaultDkgMaxMembers : Nat := 16
def maxDkgCommittee : Nat := 128
def minDkgCommittee : Nat := 4
def defaultDkgShareBudget : Nat := 256
def minShareBudgetPerMember : Nat := 8
def perPointWireBytes : Nat := 900
def conservativeInjectMaxTxBytes : Nat := 20000000
def maxDkgShareBudget : Nat := 1024
def defaultMaxVerifyOps : Nat := 4096
def minMaxVerifyOps : Nat := 256
def maxMaxVerifyOps : Nat := 16384
def voteExtShareFloor : Nat := 256

namespace Params

/-! ## Derived caps -/

/-- The stake-apportionment budget `S` actually applied. -/
def effectiveShareBudget (p : Params) : Nat :=
  if p.dkgShareBudget = 0 then defaultDkgShareBudget else p.dkgShareBudget

/-- The per-block budget of first-time share verifications. -/
def effectiveMaxVerifyOps (p : Params) : Nat :=
  if p.maxVerifyOpsPerBlock = 0 then defaultMaxVerifyOps else p.maxVerifyOpsPerBlock

/-- The committee cap actually applied. -/
def effectiveMaxMembers (p : Params) : Nat :=
  if p.dkgMaxMembers = 0 then defaultDkgMaxMembers else p.dkgMaxMembers

/-- The decryption-share cap of one vote extension, coupled to the share budget. -/
def voteExtShareCap (p : Params) : Nat :=
  if voteExtShareFloor < p.effectiveShareBudget then p.effectiveShareBudget else voteExtShareFloor

/-- The size of an injected commit that carries a two-thirds subset of the extensions. -/
def dkgInjectedCommitBytesUpperBound (p : Params) : Nat :=
  (2 * p.effectiveMaxMembers / 3 + 1) * (p.effectiveShareBudget * perPointWireBytes)

/-- The bytes a proposer may spend on the injected commit: seven eighths of the block. -/
def dkgInjectedCommitPayloadBudget (maxTxBytes : Int) : Int :=
  if maxTxBytes ≤ 0 then 0 else maxTxBytes - maxTxBytes / 8

def dkgInjectedCommitFitsMaxTxBytes (p : Params) (maxTxBytes : Int) : Bool :=
  let budget := dkgInjectedCommitPayloadBudget maxTxBytes
  if budget ≤ 0 then false else (p.dkgInjectedCommitBytesUpperBound : Int) < budget

/-! ## Validation -/

/-- One bounded phase window. -/
def checkWindow (name : String) (v max : Nat) : Except String Unit :=
  rejectIf (v < minDkgWindowBlocks ∨ max < v)
    s!"{name} ({v}) must be in [{minDkgWindowBlocks}, {max}]"

/-- The DKG timing and sizing params. Only meaningful when the DKG is enabled. -/
def validateDkgWindows (p : Params) : Except String Unit := do
  checkWindow "dkg_deal_window" p.dkgDealWindow maxDkgPhaseWindow
  checkWindow "dkg_complaint_window" p.dkgComplaintWindow maxDkgPhaseWindow
  checkWindow "dkg_retry_backoff" p.dkgRetryBackoff maxDkgPhaseWindow
  rejectIf (maxDkgWindowBlocks < p.dkgMinRekeyGap)
    s!"dkg_min_rekey_gap ({p.dkgMinRekeyGap}) must be <= {maxDkgWindowBlocks}"
  rejectIf (maxDkgWindowBlocks < p.dkgMaxAttempts)
    s!"dkg_max_attempts ({p.dkgMaxAttempts}) must be <= {maxDkgWindowBlocks}"
  rejectIf (maxDkgCommittee < p.dkgMaxMembers)
    s!"dkg_max_members ({p.dkgMaxMembers}) must be <= {maxDkgCommittee}"
  rejectIf (p.dkgMaxMembers ≠ 0 ∧ p.dkgMaxMembers < minDkgCommittee)
    s!"dkg_max_members ({p.dkgMaxMembers}) must be 0 (default) or >= {minDkgCommittee}"
  rejectIf (maxDkgShareBudget < p.dkgShareBudget)
    s!"dkg_share_budget ({p.dkgShareBudget}) must be <= {maxDkgShareBudget}"
  rejectIf (maxDkgWindowBlocks < p.dkgMaxEpochBlocks)
    s!"dkg_max_epoch_blocks ({p.dkgMaxEpochBlocks}) must be <= {maxDkgWindowBlocks}"
  rejectIf (maxDriftBps < p.dkgRekeyOnStakeDriftBps)
    s!"dkg_rekey_on_stake_drift_bps ({p.dkgRekeyOnStakeDriftBps}) must be <= {maxDriftBps} (100%)"
  rejectIf (p.dkgTransparent
      ∧ p.effectiveShareBudget < minShareBudgetPerMember * p.effectiveMaxMembers)
    s!"dkg_share_budget ({p.effectiveShareBudget}) must be >= {minShareBudgetPerMember} * the effective committee cap ({minShareBudgetPerMember}*{p.effectiveMaxMembers}={minShareBudgetPerMember * p.effectiveMaxMembers}): a smaller budget degenerates stake apportionment (decryption power would track operator-address order, not stake)"
  rejectIf (p.dkgTransparent
      ∧ p.dkgInjectedCommitFitsMaxTxBytes conservativeInjectMaxTxBytes = false)
    s!"dkg_max_members ({p.effectiveMaxMembers}) x dkg_share_budget ({p.effectiveShareBudget}): a >2/3-power injected commit is ~{p.dkgInjectedCommitBytesUpperBound} bytes, exceeding the assumed proposer injection budget {dkgInjectedCommitPayloadBudget conservativeInjectMaxTxBytes} under MaxTxBytes floor {conservativeInjectMaxTxBytes} - lower dkg_max_members or dkg_share_budget (or raise the chain MaxTxBytes)"

/-- The declared member list, entry by entry, with the operators and accounts already seen. -/
def validateDkgMembers (X : External) :
    Nat → List Bytes → List Bytes → List DkgMember → Except String Unit
  | _, _, _, [] => .ok ()
  | i, seenOp, seenAcc, m :: ms => do
    rejectIf (m.operatorAddr = [] ∨ m.accountAddr = [])
      s!"dkg_members[{i}]: operator_addr and account_addr are required"
    rejectIf (m.encPubKey.length ≠ 33)
      s!"dkg_members[{i}]: enc_pubkey must be a 33-byte compressed key, got {m.encPubKey.length}"
    rejectIf (validCompressedPoint X m.encPubKey = false)
      s!"dkg_members[{i}]: enc_pubkey is not a valid compressed secp256k1 point"
    rejectIf (m.operatorAddr ∈ seenOp ∨ m.accountAddr ∈ seenAcc)
      s!"dkg_members[{i}]: duplicate operator/account address"
    validateDkgMembers X (i + 1) (m.operatorAddr :: seenOp) (m.accountAddr :: seenAcc) ms

/-- The DKG part of the validation. -/
def validateDkg (X : External) (p : Params) : Except String Unit := do
  if p.dkgTransparent = false then
    rejectIf (p.dkgMembers.length = 0)
      "dkg_enabled requires a non-empty dkg_members set (unless dkg_transparent)"
    validateDkgMembers X 0 [] [] p.dkgMembers
    rejectIf (p.dkgThreshold ≠ 0 ∧ p.dkgMembers.length < p.dkgThreshold)
      s!"dkg_threshold ({p.dkgThreshold}) must be <= number of members ({p.dkgMembers.length})"
    validateDkgWindows p
  else validateDkgWindows p

/-- The keyper list of the trusted setup. -/
def validateKeypers : List Bytes → List Bytes → Except String Unit
  | _, [] => .ok ()
  | seen, kp :: kps => do
    rejectIf (kp = []) "keyper address must not be empty"
    rejectIf (kp ∈ seen) "duplicate keyper address (breaks the 1-based index scheme)"
    validateKeypers (kp :: seen) kps

/-- The checks that apply once the encrypted path is enabled. -/
def validateEnc (X : External) (p : Params) : Except String Unit := do
  rejectIf (p.decryptDelay = 0)
    "decrypt_delay must be >= 1 when enc_enabled (else EncTx are never decrypted and never GC'd)"
  rejectIf (p.maxInFlightEncTx = 0)
    "max_in_flight_enc_tx must be >= 1 when enc_enabled (0 disables the global admission cap)"
  rejectIf (0 < p.encSubmitBond ∧ X.validDenom p.encSubmitBondDenom = false)
    "enc_submit_bond_denom is required and must be a valid denom when enc_submit_bond > 0"
  rejectIf (10000 < p.encSubmitBondBurnBps)
    s!"enc_submit_bond_burn_bps ({p.encSubmitBondBurnBps}) must be <= 10000 (100%)"
  rejectIf (0 < p.encSubmitBondBurnBps ∧ p.encSubmitBond = 0)
    "enc_submit_bond_burn_bps requires a positive enc_submit_bond"
  rejectIf (p.encExecEnabled ∧ p.encSubmitBond = 0)
    "enc_submit_bond must be positive when enc_exec_enabled (encrypted submissions need a real anti-sybil price)"
  rejectIf (p.encExecEnabled ∧ p.encSubmitBondBurnBps = 0)
    "enc_submit_bond_burn_bps must be positive when enc_exec_enabled (a fully-refundable bond is not a sybil price)"
  if p.dkgEnabled then
    rejectIf (p.dkgTransparent ∧ p.dkgMaxEpochBlocks = 0 ∧ p.dkgRekeyOnStakeDriftBps = 0)
      "transparent DKG on a live encrypted path requires a staleness-rekey trigger: set dkg_max_epoch_blocks or dkg_rekey_on_stake_drift_bps > 0"
  else
    rejectIf (p.threshold = 0) "threshold must be >= 1 when enc_enabled"
    rejectIf (p.keypers.length < p.threshold)
      s!"threshold ({p.threshold}) exceeds keyper count ({p.keypers.length})"
    rejectIf (p.thresholdPub.length = 0) "threshold_pub must be set when enc_enabled"
    validateKeypers [] p.keypers

/-- Whether these params may be stored. -/
def validate (X : External) (p : Params) : Except String Unit := do
  rejectIf (p.revealDelay = 0) "reveal_delay must be >= 1"
  rejectIf (maxCommitRevealWindow < p.revealDelay)
    s!"reveal_delay ({p.revealDelay}) must be <= {maxCommitRevealWindow}"
  rejectIf (p.maxRevealWindow < p.revealDelay)
    s!"max_reveal_window ({p.maxRevealWindow}) must be >= reveal_delay ({p.revealDelay})"
  rejectIf (maxCommitRevealWindow < p.maxRevealWindow)
    s!"max_reveal_window ({p.maxRevealWindow}) must be <= {maxCommitRevealWindow}"
  rejectIf (maxDkgPhaseWindow < p.decryptDelay)
    s!"decrypt_delay ({p.decryptDelay}) must be <= {maxDkgPhaseWindow} (it drives the key-retention window)"
  rejectIf (maxInFlightCeiling < p.maxInFlightEncTx ∨ maxInFlightCeiling < p.maxInFlightPerSubmitter)
    s!"max_in_flight ceilings must be <= {maxInFlightCeiling}"
  rejectIf (p.maxVerifyOpsPerBlock ≠ 0
      ∧ (p.maxVerifyOpsPerBlock < minMaxVerifyOps ∨ maxMaxVerifyOps < p.maxVerifyOpsPerBlock))
    s!"max_verify_ops_per_block ({p.maxVerifyOpsPerBlock}) must be 0 (default) or in [{minMaxVerifyOps}, {maxMaxVerifyOps}]"
  rejectIf (0 < p.maxInFlightEncTx ∧ p.maxInFlightEncTx < p.maxInFlightPerSubmitter)
    s!"max_in_flight_per_submitter ({p.maxInFlightPerSubmitter}) must be <= max_in_flight_enc_tx ({p.maxInFlightEncTx})"
  if p.dkgEnabled then validateDkg X p else pure ()
  if p.encEnabled then validateEnc X p else pure ()

end Params

/-- The default params: encrypted path and DKG off. -/
def defaultParams : Params :=
  { revealDelay := 1, maxRevealWindow := 100, encEnabled := false, encExecEnabled := false
    thresholdPub := [], threshold := 0, keypers := [], decryptDelay := 1
    maxInFlightEncTx := 32768, maxInFlightPerSubmitter := 2048
    encSubmitBond := 1000000, encSubmitBondDenom := bytesOf "stake", encSubmitBondBurnBps := 10000
    maxVerifyOpsPerBlock := 0
    dkgEnabled := false, dkgStartHeight := 0, dkgDealWindow := 20, dkgComplaintWindow := 10
    dkgThreshold := 0, dkgMembers := [], dkgRetryBackoff := 5, dkgMaxAttempts := 8
    dkgMinRekeyGap := 30, dkgTransparent := false, dkgMaxMembers := 0, dkgShareBudget := 0
    dkgMaxEpochBlocks := 43200, dkgRekeyOnStakeDriftBps := 500, dkgRetainActiveDealings := true
    dkgStrictConcentration := true }

theorem validate_defaultParams (X : External) : defaultParams.validate X = .ok () := rfl

namespace Params

theorem validate_parts (h : p.validate X = .ok ()) :
    (p.maxInFlightEncTx ≤ maxInFlightCeiling)
      ∧ (p.dkgEnabled = true → p.validateDkg X = .ok ())
      ∧ (p.encEnabled = true → p.validateEnc X = .ok ()) := by
  simp only [validate, bind_unit_eq_ok, rejectIf_eq_ok] at h
  obtain ⟨-, -, -, -, -, hcap, -, -, h⟩ := h
  refine ⟨Nat.not_lt.mp (not_or.mp hcap).1, fun hdkg => ?_, fun henc => ?_⟩
  · rw [if_pos hdkg] at h
    exact (bind_unit_eq_ok.mp h).1
  · rw [if_pos henc] at h
    split_ifs at h
    · exact (bind_unit_eq_ok.mp h).2
    · exact h

theorem validate_dkg (h : p.validate X = .ok ()) (hdkg : p.dkgEnabled = true) :
    p.validateDkgWindows = .ok () := by
  have hv := (validate_parts h).2.1 hdkg
  unfold validateDkg at hv
  split_ifs at hv with ht
  · simp only [bind_unit_eq_ok] at hv
    exact hv.2.2.2
  · exact hv

theorem validate_maxInFlight (h : p.validate X = .ok ()) (henc : p.encEnabled = true) :
    0 < p.maxInFlightEncTx ∧ p.maxInFlightEncTx ≤ 2 ^ 40 := by
  obtain ⟨hcap, -, hpart⟩ := validate_parts h
  have hv := hpart henc
  simp only [validateEnc, bind_unit_eq_ok, rejectIf_eq_ok] at hv
  exact ⟨Nat.pos_of_ne_zero hv.2.1, hcap⟩

theorem validate_windows (h : p.validate X = .ok ()) :
    0 < p.revealDelay ∧ p.revealDelay ≤ p.maxRevealWindow
      ∧ p.maxRevealWindow ≤ maxCommitRevealWindow ∧ p.decryptDelay ≤ maxDkgPhaseWindow := by
  simp only [validate, bind_unit_eq_ok, rejectIf_eq_ok] at h
  obtain ⟨hpos, -, hle, hcap, hdelay, -⟩ := h
  exact ⟨Nat.pos_of_ne_zero hpos, Nat.not_lt.mp hle, Nat.not_lt.mp hcap, Nat.not_lt.mp hdelay⟩

theorem validate_burnBps (h : p.validate X = .ok ()) (henc : p.encEnabled = true) :
    p.encSubmitBondBurnBps ≤ 10000 := by
  have hv := (validate_parts h).2.2 henc
  simp only [validateEnc, bind_unit_eq_ok, rejectIf_eq_ok] at hv
  exact Nat.not_lt.mp hv.2.2.2.1

end Params

end EncMempool
