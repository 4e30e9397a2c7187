import Limonata.EncMempool.Simulation

/-!
# x/encmempool — the records the DKG leaves alone

The commit-reveal records, the ciphertexts with their counters, the submit rates and the bond
ledger are written by the message handlers that own them and by the begin-block, never by the vote
extensions, the shares, the dealings or the end-block. `State.accounts` is that part of the store;
what holds of it has only those few writers to be checked against.
-/

namespace EncMempool

open Machine Check

variable {X : External} {ctx : Ctx}

/-- The state without what the release of a ciphertext writes. -/
def State.offRelease (s : State) : State :=
  { s with
    encTxs := .empty, encShares := .empty, rejectedShares := .empty, globalEncCount := none
    submitterEncCounts := .empty, epochEncCounts := .empty, rounds := .empty, dealings := .empty
    complaints := .empty, rejectedComplaints := .empty, activeKeys := .empty
    shareKeys := .empty, shareKeyCursors := .empty, strandStreaks := .empty, bankOps := [] }

namespace State

/-! ## Vote extensions -/

theorem ingestDecryptSharesBounded_frame (s : State) (p : Params) (canon : List VEEntry) :
    ∃ es rs, s.ingestDecryptSharesBounded X ctx p canon
      = { s with encShares := es, rejectedShares := rs } := by
  refine Reach.run_keeps (I := fun t => ∃ es rs, t = { s with encShares := es, rejectedShares := rs })
    ?_ (ingestDecryptSharesBounded_run s p canon) ⟨_, _, rfl⟩
  rintro t t' hstep ⟨es, rs, rfl⟩
  cases hstep
  unfold verifyAndStoreDecryptShare
  split_ifs
  · exact ⟨_, _, rfl⟩
  · exact ⟨_, _, rfl⟩

/-! ## The begin-block -/

theorem releaseEncTx_offRelease (s : State) (e : EncTx) :
    (s.releaseEncTx X e).offRelease = s.offRelease := by
  obtain ⟨ops, heq⟩ := @releaseEncTx_eq X s e
  obtain ⟨d, c, rc, ak, sk, cu, st, r, hframe⟩ := maybePruneEpoch_frame (s.withoutEncTx e) e.epoch
  rw [heq, hframe]
  rfl

theorem BlockRun.offRelease {s s' : State} (hrun : BlockRun X s s') :
    s'.offRelease = s.offRelease := by
  refine Reach.run_keeps (I := fun t : State => t.offRelease = s.offRelease) ?_ hrun rfl
  intro t t' hstep ht
  refine Eq.trans ?_ ht
  cases hstep with
  | strand he => rfl
  | heal epoch => rfl
  | release he hok => exact releaseEncTx_offRelease t _

end State

/-- The actions that write the accounts: the rest belongs to the DKG and the shares. -/
def Action.writesAccounts : Action → Bool
  | .updateParams _ | .commitTx _ | .revealTx _ | .submitEncrypted _ _ | .beginBlock _ => true
  | .submitDecryptionShare _ | .dkgDeal _ | .dkgComplaint _ | .consumeVoteExtensions _
  | .ingestDecryptShareFromVE _ _ | .endBlockDKG => false

/-- What does not belong to them leaves them alone. -/
theorem State.step_accounts (s : State) {a : Action} (ha : a.writesAccounts = false) :
    (s.step X ctx a).accounts = s.accounts := by
  cases a with
  | updateParams | commitTx | revealTx | submitEncrypted | beginBlock => cases ha
  | submitDecryptionShare msg =>
    refine orElse_keeps (P := fun t => t.accounts = s.accounts) rfl fun s' h => ?_
    obtain ⟨-, -, -, rfl⟩ := submitDecryptionShare_spec h
    rfl
  | dkgDeal msg =>
    exact orElse_keeps (P := fun t => t.accounts = s.accounts) rfl fun _ h =>
      (dkgDeal_writes (w := ⟨True, True, True⟩) h).accounts
  | dkgComplaint msg =>
    exact orElse_keeps (P := fun t => t.accounts = s.accounts) rfl fun _ h =>
      (dkgComplaint_writes (w := ⟨True, True, True⟩) h).accounts
  | consumeVoteExtensions entries =>
    exact (consumeVoteExtensions_writes (w := ⟨True, True, True⟩) s entries).accounts
  | ingestDecryptShareFromVE op sh =>
    exact (ingestDecryptShareFromVE_writes (w := ⟨True, True, True⟩) s op sh).accounts
  | endBlockDKG =>
    exact (endBlockDKG_writes (w := ⟨True, True, True⟩) trivial (.inl trivial)).accounts

end EncMempool
