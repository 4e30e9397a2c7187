import Limonata.EncMempool.Accounts

/-!
# x/encmempool — the submit bond

A bond is escrowed by the submission, stamped on the stored ciphertext by a second write and settled
when the ciphertext leaves the pool, possibly under other params. `bondEscrow_conserved` is the
account of the whole: every escrow is that of a ciphertext still stored or of one settled once.

The argument rests on the key of a ciphertext being fresh when it is stored. The sequence counter is
a 64-bit word and wraps, but a key is the pair of decrypt height and sequence number, two
ciphertexts with one decrypt height are at most a decrypt delay apart, and the rate limit bounds the
submissions in between.
-/

namespace EncMempool

open Machine Check RecStore

variable {X : External} {ctx : Ctx}

/-! ## Bank operations -/

namespace EncTx

/-- The bank operation a submission was charged with. -/
def escrowOps (e : EncTx) : List BankOp :=
  if e.bond = 0 then [] else [.escrow e.submitter e.bondDenom e.bond]

/-- The settlement of a bond: the stamped portion is burned, the rest goes to the submitter. -/
def settleOps (e : EncTx) : List BankOp :=
  (if 0 < e.bondBurn then [.burn e.bondDenom e.bondBurn] else [])
    ++ (if 0 < e.bond - e.bondBurn then
      [.refund e.submitter e.bondDenom (e.bond - e.bondBurn)] else [])

/-- The bond of a ciphertext as its submission stamps it. -/
structure Stamped (X : External) (e : EncTx) : Prop where
  burn : e.bondBurn ≤ e.bond
  payee : e.bond ≠ 0 → X.validAccAddress e.submitter = true

end EncTx

/-- What an operation adds to the module account's coins of a denom. -/
def BankOp.effect (denom : Bytes) : BankOp → Int
  | .escrow _ d n => if d = denom then n else 0
  | .burn d n => if d = denom then -n else 0
  | .refund _ d n => if d = denom then -n else 0

/-- The net effect of a list of operations. -/
def netEffect (denom : Bytes) (ops : List BankOp) : Int := (ops.map (BankOp.effect denom)).sum

@[simp] theorem netEffect_append (denom : Bytes) (ops ops' : List BankOp) :
    netEffect denom (ops ++ ops') = netEffect denom ops + netEffect denom ops' := by
  simp [netEffect]

theorem netEffect_perm {denom : Bytes} {ops ops' : List BankOp} (h : ops.Perm ops') :
    netEffect denom ops = netEffect denom ops' :=
  (h.map _).sum_eq

/-- The part of a bond held in a denom. -/
def EncTx.bondIn (denom : Bytes) (e : EncTx) : Nat := if e.bondDenom = denom then e.bond else 0

theorem netEffect_escrowOps (denom : Bytes) (e : EncTx) :
    netEffect denom e.escrowOps = e.bondIn denom := by
  unfold EncTx.escrowOps EncTx.bondIn netEffect
  split_ifs with hzero hdenom hdenom
  · simp [hzero]
  · simp
  · simp [BankOp.effect, hdenom]
  · simp [BankOp.effect, hdenom]

theorem netEffect_settleOps (denom : Bytes) {e : EncTx} (h : e.bondBurn ≤ e.bond) :
    netEffect denom e.settleOps = -(e.bondIn denom : Int) := by
  have hburn : netEffect denom (if 0 < e.bondBurn then [.burn e.bondDenom e.bondBurn] else [])
      = if e.bondDenom = denom then -(e.bondBurn : Int) else 0 := by
    split_ifs with hpos hdenom hdenom
    · simp [netEffect, BankOp.effect, hdenom]
    · simp [netEffect, BankOp.effect, hdenom]
    · simp [netEffect, Nat.eq_zero_of_not_pos hpos]
    · rfl
  have hrefund : netEffect denom (if 0 < e.bond - e.bondBurn then
        [.refund e.submitter e.bondDenom (e.bond - e.bondBurn)] else [])
      = if e.bondDenom = denom then -((e.bond - e.bondBurn : Nat) : Int) else 0 := by
    split_ifs with hpos hdenom hdenom
    · simp [netEffect, BankOp.effect, hdenom]
    · simp [netEffect, BankOp.effect, hdenom]
    · simp [netEffect, Nat.eq_zero_of_not_pos hpos]
    · rfl
  unfold EncTx.settleOps EncTx.bondIn
  rw [netEffect_append, hburn, hrefund]
  split_ifs
  · omega
  · rfl

theorem netEffect_escrows (denom : Bytes) (es : List EncTx) :
    netEffect denom (es.flatMap EncTx.escrowOps) = ((es.map (EncTx.bondIn denom)).sum : Nat) := by
  induction es with
  | nil => rfl
  | cons e es ih =>
    rw [List.flatMap_cons, netEffect_append, netEffect_escrowOps, ih, List.map_cons,
      List.sum_cons, Nat.cast_add]

theorem netEffect_settlements (denom : Bytes) {es : List EncTx}
    (h : ∀ e ∈ es, e.bondBurn ≤ e.bond) :
    netEffect denom (es.flatMap EncTx.settleOps)
      = -((es.map (EncTx.bondIn denom)).sum : Nat) := by
  induction es with
  | nil => rfl
  | cons e es ih =>
    rw [List.flatMap_cons, netEffect_append, netEffect_settleOps denom (h e List.mem_cons_self),
      ih fun x hx => h x (.tail _ hx), List.map_cons, List.sum_cons, Nat.cast_add, neg_add]

namespace State

/-- The module account's net holdings of a denom: bonds escrowed minus burned and refunded. -/
def bondHoldings (s : State) (denom : Bytes) : Int := netEffect denom s.bankOps

/-- The bonds of the stored ciphertexts in a denom. -/
def bondsStored (s : State) (denom : Bytes) : Nat :=
  (s.encTxs.entries.map (EncTx.bondIn denom)).sum

/-- **The account of the ledger.** The operations are one escrow for each ciphertext of `settled`
and each one stored, and one settlement for each of `settled`. -/
def LedgerOf (s : State) (settled : List EncTx) : Prop :=
  (∀ e ∈ settled, e.bondBurn ≤ e.bond)
    ∧ s.bankOps.Perm ((settled ++ s.encTxs.entries).flatMap EncTx.escrowOps
        ++ settled.flatMap EncTx.settleOps)

theorem LedgerOf.holdings {s : State} {settled : List EncTx} (h : s.LedgerOf settled)
    (denom : Bytes) : s.bondHoldings denom = s.bondsStored denom := by
  unfold bondHoldings bondsStored
  rw [netEffect_perm h.2, netEffect_append, netEffect_escrows, netEffect_settlements denom h.1,
    List.map_append, List.sum_append, Nat.cast_add]
  omega

/-! ## Writes of the ledger -/

theorem releaseEncTx_bankOps {s : State} {e : EncTx} (he : e.Stamped X) :
    (s.releaseEncTx X e).bankOps = s.bankOps ++ e.settleOps := by
  have hrefund (u : State) : (u.refundBond X e).bankOps = u.bankOps ++ e.settleOps := by
    have hburn := he.burn
    unfold refundBond EncTx.settleOps
    by_cases hzero : e.bond = 0
    · have hnone : e.bondBurn = 0 := by omega
      simp [hzero, hnone]
    · simp only [if_neg hzero, Nat.min_eq_left hburn, he.payee hzero, and_true,
        List.append_assoc]
  unfold releaseEncTx
  simp only [hrefund]
  split_ifs
  · exact congrArg (· ++ e.settleOps) (congrArg State.bankOps (maybePruneEpoch_accounts _ _) : _)
  · rfl

/-- What the decryption half of a block does to the pool and the ledger: some ciphertexts leave,
and each is settled as it does. -/
theorem BlockRun.settles {s s' : State} (hrun : BlockRun X s s')
    (hstamped : ∀ e ∈ s.encTxs.entries, e.Stamped X) :
    s'.params = s.params ∧ s'.encSeq = s.encSeq ∧ s'.globalSubmitRates = s.globalSubmitRates
      ∧ ∃ released : List EncTx, s.encTxs.entries.Perm (released ++ s'.encTxs.entries)
        ∧ s'.bankOps = s.bankOps ++ released.flatMap EncTx.settleOps := by
  induction hrun with
  | refl => exact ⟨rfl, rfl, rfl, [], .refl _, by simp⟩
  | @tail t u _ hstep ih =>
    obtain ⟨hparams, hseq, hrates, released, hperm, hops⟩ := ih
    cases hstep with
    | strand he | heal epoch => exact ⟨hparams, hseq, hrates, released, hperm, hops⟩
    | @release e he hok =>
      have hmem : e ∈ s.encTxs.entries := hperm.mem_iff.mpr (List.mem_append_right _ he)
      have hsettle := releaseEncTx_bankOps (s := t) (hstamped e hmem)
      obtain ⟨ops, heq⟩ := @releaseEncTx_eq X t e
      obtain ⟨_, _, _, _, _, _, _, _, hframe⟩ := maybePruneEpoch_frame (t.withoutEncTx e) e.epoch
      rw [hframe] at heq
      rw [heq] at hsettle ⊢
      refine ⟨hparams, hseq, hrates, released ++ [e], ?_, hsettle.trans ?_⟩
      · have hdel := del_perm ((mem_entries_iff _ _).mp he)
        rw [List.append_assoc]
        exact hperm.trans (hdel.append_left released)
      · rw [hops, List.flatMap_append, List.append_assoc]
        simp

/-- **What an accepted submission writes.** One ciphertext with the next sequence number, stamped
with the bond of the params and its burn portion, and the escrow of that bond. -/
theorem submitEncrypted_stores {s s' : State} {escrowed : Bool} {msg : MsgSubmitEncrypted}
    (h : s.submitEncrypted X ctx escrowed msg = .ok s') :
    s.params.encEnabled = true
      ∧ wrap64 ((s.globalSubmitRates.lookup ctx.height).getD 0 + 1) ≤ maxEncSubmitsPerBlockGlobal
      ∧ s'.params = s.params ∧ s'.encSeq = wrap64 (s.encSeq + 1)
      ∧ s'.globalSubmitRates = s.globalSubmitRates.assign ctx.height
        (wrap64 ((s.globalSubmitRates.lookup ctx.height).getD 0 + 1))
      ∧ ∃ e : EncTx, e.submitter = msg.submitter.1 ∧ e.submitHeight = ctx.height
        ∧ e.key = key2 (ctx.height + s.params.decryptDelay) s.encSeq
        ∧ e.bond = s.params.encSubmitBond
        ∧ (e.bond ≠ 0 → e.bondDenom = s.params.encSubmitBondDenom
          ∧ X.validAccAddress e.submitter = true)
        ∧ e.bondBurn = s.params.encSubmitBond * s.params.encSubmitBondBurnBps / 10000
        ∧ s'.encTxs = s.encTxs.put e ∧ s'.bankOps = s.bankOps ++ e.escrowOps := by
  unfold submitEncrypted at h
  cases hadm : s.admitSubmission X ctx msg with
  | error err => simp [hadm] at h
  | ok r =>
    obtain ⟨t, epoch⟩ := r
    obtain ⟨⟨sr, rfl⟩, hrate, henabled, -⟩ := admitSubmission_spec hadm
    simp only [hadm] at h
    split_ifs at h with hbond
    · cases h
      refine ⟨henabled, hrate, rfl, rfl, rfl, _, rfl, rfl, rfl, hbond.symm, ?_, ?_, rfl, ?_⟩
      · exact fun hne => absurd rfl hne
      · simp [hbond]
      · simp [submitEncTx, EncTx.escrowOps]
    · simp only [bind_unit_eq_ok, rejectIf_eq_ok] at h
      obtain ⟨hpayee, -, -, h⟩ := h
      cases h
      let e : EncTx :=
        { submitter := msg.submitter.1, submitHeight := ctx.height
          decryptHeight := ctx.height + s.params.decryptDelay, seq := s.encSeq, a := msg.a
          nonce := msg.nonce, body := msg.body, epoch := epoch, bond := s.params.encSubmitBond
          bondDenom := s.params.encSubmitBondDenom
          bondBurn := s.params.encSubmitBond * s.params.encSubmitBondBurnBps / 10000 }
      refine ⟨henabled, hrate, rfl, rfl, rfl, e, rfl, rfl, rfl, rfl, ?_, rfl, ?_, ?_⟩
      · exact fun _ => ⟨rfl, by simpa using hpayee⟩
      · exact put_put rfl
      · simp only [submitEncTx, stampBond, EncTx.escrowOps, e, if_neg hbond]

end State

/-! ## The invariant -/

/-- How far back a stored ciphertext lies: at most a full block of submissions for each block
since, and the submissions of this block. -/
structure Spaced (c : Chain) (e : EncTx) : Prop where
  past : e.submitHeight ≤ c.height
  window : e.decryptHeight ≤ e.submitHeight + maxDkgPhaseWindow
  behind : ∃ d, 0 < d ∧ wrap64 (e.seq + d) = c.state.encSeq
    ∧ d ≤ maxEncSubmitsPerBlockGlobal * (c.height - e.submitHeight)
      + (c.state.globalSubmitRates.lookup c.height).getD 0

/-- What keeps the ledger in step with the pool. -/
structure Chain.BondInv (X : External) (c : Chain) : Prop where
  params : c.state.params.validate X = .ok ()
  stamped : ∀ e ∈ c.state.encTxs.entries, e.Stamped X
  rates : ∀ h, (c.state.globalSubmitRates.lookup h).getD 0 ≤ maxEncSubmitsPerBlockGlobal
  spaced : ∀ e ∈ c.state.encTxs.entries, Spaced c e
  ledger : ∃ settled, c.state.LedgerOf settled

namespace Chain

variable {s s' : State} {h : Nat}

theorem BondInv.advance {h' : Nat} (hinv : BondInv X ⟨h, s⟩) (hle : h ≤ h') :
    BondInv X ⟨h', s⟩ := by
  refine ⟨hinv.params, hinv.stamped, hinv.rates, fun e he => ?_, hinv.ledger⟩
  obtain ⟨hpast, hwindow, d, hpos, hseq, hd⟩ := hinv.spaced e he
  simp only at hpast hseq hd
  refine ⟨hpast.trans hle, hwindow, d, hpos, hseq, ?_⟩
  have hrate := hinv.rates h
  simp only at hrate ⊢
  rcases hle.eq_or_lt with rfl | hlt
  · exact hd
  · have hmul : maxEncSubmitsPerBlockGlobal * (h - e.submitHeight) + maxEncSubmitsPerBlockGlobal
        ≤ maxEncSubmitsPerBlockGlobal * (h' - e.submitHeight) := by
      rw [← Nat.mul_succ]
      exact Nat.mul_le_mul_left _ (by omega)
    omega

/-- The invariant reads the params, the pool, the sequence counter, the global rates and the
ledger. -/
theorem BondInv.congr (hinv : BondInv X ⟨h, s⟩) (hparams : s'.params.validate X = .ok ())
    (htx : s'.encTxs = s.encTxs) (hseq : s'.encSeq = s.encSeq)
    (hrate : (s'.globalSubmitRates.lookup h).getD 0 = (s.globalSubmitRates.lookup h).getD 0)
    (hrates : ∀ n, (s'.globalSubmitRates.lookup n).getD 0 ≤ maxEncSubmitsPerBlockGlobal)
    (hops : s'.bankOps = s.bankOps) : BondInv X ⟨h, s'⟩ := by
  refine ⟨hparams, fun e he => hinv.stamped e (htx ▸ he), hrates, fun e he => ?_, ?_⟩
  · obtain ⟨hpast, hwindow, d, hpos, heq, hd⟩ := hinv.spaced e (htx ▸ he)
    simp only at hpast heq hd
    exact ⟨hpast, hwindow, d, hpos, heq.trans hseq.symm, by simpa only [hrate] using hd⟩
  · obtain ⟨settled, hburn, hperm⟩ := hinv.ledger
    refine ⟨settled, hburn, ?_⟩
    simp only [htx, hops]
    exact hperm

theorem BondInv.accounts (hinv : BondInv X ⟨h, s⟩) (hsame : s'.accounts = s.accounts) :
    BondInv X ⟨h, s'⟩ := by
  cases s
  cases s'
  cases hsame
  exact hinv.congr hinv.params rfl rfl rfl hinv.rates rfl

/-- **The key of a new ciphertext is fresh.** A stored ciphertext with the same decrypt height was
submitted less than a decrypt delay ago, and the rate limit leaves no room for the counter to have
come round since. -/
theorem BondInv.fresh (hinv : BondInv X ⟨h, s⟩) :
    s.encTxs.get? (key2 (h + s.params.decryptDelay) s.encSeq) = none := by
  by_contra hsome
  obtain ⟨e, he⟩ := Option.ne_none_iff_exists'.mp hsome
  have hkey : e.key = key2 (h + s.params.decryptDelay) s.encSeq := key_of_get? he
  obtain ⟨hheight, hseq⟩ := key2_inj.mp hkey
  obtain ⟨hpast, hwindow, d, hpos, hwrap, hd⟩ := hinv.spaced e (mem_of_get? he)
  have hrate := hinv.rates h
  simp only at hpast hwrap hd hrate
  -- the window bounds the distance, a wrap would need all of the 64-bit range
  have hnear : h - e.submitHeight ≤ maxDkgPhaseWindow := by omega
  have hbound : maxEncSubmitsPerBlockGlobal * (h - e.submitHeight)
      ≤ maxEncSubmitsPerBlockGlobal * maxDkgPhaseWindow := Nat.mul_le_mul_left _ hnear
  simp only [wrap64, maxEncSubmitsPerBlockGlobal, maxDeferredDecryptsPerBlock,
    maxDkgPhaseWindow] at hwrap hd hrate hbound
  omega

theorem BondInv.submit {escrowed : Bool} {msg : MsgSubmitEncrypted}
    (hinv : BondInv X ⟨ctx.height, s⟩) (h : s.submitEncrypted X ctx escrowed msg = .ok s') :
    BondInv X ⟨ctx.height, s'⟩ := by
  obtain ⟨henabled, hcap, hparams, hseq, hrates, e, -, hheight, hkey, hbond, hstamp, hburn, htx,
    hops⟩ := State.submitEncrypted_stores h
  have hdelay := (Params.validate_windows hinv.params).2.2.2
  have hbps := Params.validate_burnBps hinv.params henabled
  have hold := hinv.rates ctx.height
  have hcount : wrap64 ((s.globalSubmitRates.lookup ctx.height).getD 0 + 1)
      = (s.globalSubmitRates.lookup ctx.height).getD 0 + 1 := by
    refine Nat.mod_eq_of_lt ?_
    simp only [maxEncSubmitsPerBlockGlobal, maxDeferredDecryptsPerBlock] at hold
    omega
  have hlookup (n : Nat) : (s'.globalSubmitRates.lookup n).getD 0
      = if n = ctx.height then (s.globalSubmitRates.lookup ctx.height).getD 0 + 1
        else (s.globalSubmitRates.lookup n).getD 0 := by
    rw [hrates, KVStore.lookup_assign, hcount]
    split_ifs
    · rfl
    · rfl
  have hfresh : s.encTxs.get? e.key = none := hkey ▸ hinv.fresh
  obtain ⟨hdecrypt, heseq⟩ := key2_inj.mp hkey
  have hmem : ∀ x ∈ s'.encTxs.entries, x = e ∨ x ∈ s.encTxs.entries := by
    intro x hx
    rw [htx, mem_put_iff] at hx
    exact hx.imp_right And.left
  refine ⟨hparams ▸ hinv.params, fun x hx => ?_, fun n => ?_, fun x hx => ?_, ?_⟩
  · cases hmem x hx with
    | inl hnew =>
      refine ⟨?_, fun hne => ?_⟩
      · rw [hnew, hburn, hbond]
        exact Nat.div_le_of_le_mul (Nat.mul_comm 10000 _ ▸
          Nat.mul_le_mul_left _ hbps)
      · rw [hnew] at hne ⊢
        exact (hstamp hne).2
    | inr hx => exact hinv.stamped x hx
  · rw [hlookup]
    split_ifs
    · exact hcount ▸ hcap
    · exact hinv.rates n
  · cases hmem x hx with
    | inl hnew =>
      subst hnew
      refine ⟨hheight.le, by rw [hdecrypt, hheight]; exact Nat.add_le_add_left hdelay _, 1,
        one_pos, by rw [heseq, hseq], ?_⟩
      simp only [hlookup, if_pos]
      omega
    | inr hx =>
      obtain ⟨hpast, hwindow, d, hpos, heq, hd⟩ := hinv.spaced x hx
      simp only at heq hd
      refine ⟨hpast, hwindow, d + 1, by omega, ?_, ?_⟩
      · simp only [hseq, ← heq, wrap64]
        omega
      · simp only [hlookup, if_pos]
        omega
  · obtain ⟨settled, hsettled, hperm⟩ := hinv.ledger
    refine ⟨settled, hsettled, ?_⟩
    have hput : s'.encTxs.entries.Perm (e :: s.encTxs.entries) := by
      have := put_perm s.encTxs e
      rwa [del_of_get?_none hfresh, ← htx] at this
    simp only [hops]
    refine (hperm.append_right _).trans ?_
    rw [List.append_assoc]
    refine (List.perm_append_comm.append_left _).trans ?_
    rw [← List.append_assoc]
    refine List.Perm.append_right _ ?_
    have hescrows : (s'.encTxs.entries.flatMap EncTx.escrowOps).Perm
        (e.escrowOps ++ s.encTxs.entries.flatMap EncTx.escrowOps) := hput.flatMap_right _
    rw [List.flatMap_append, List.flatMap_append, List.append_assoc]
    exact (List.perm_append_comm.trans hescrows.symm).append_left _

theorem BondInv.gcEncSubmitRate (hinv : BondInv X ⟨h, s⟩) : BondInv X ⟨h, s.gcEncSubmitRate h⟩ := by
  refine hinv.congr hinv.params rfl rfl ?_ (fun n => ?_) rfl
  · unfold State.gcEncSubmitRate
    simp only [KVStore.lookup_delWhere]
    rw [if_neg]
    intro hstale
    have hmem := List.mem_of_mem_take (List.contains_iff_mem.mp hstale)
    exact absurd (List.mem_takeWhile_imp hmem) (by simp)
  · unfold State.gcEncSubmitRate
    simp only [KVStore.lookup_delWhere]
    split_ifs
    · exact Nat.zero_le _
    · exact hinv.rates n

theorem BondInv.revealPhase (hinv : BondInv X ⟨h, s⟩) (cur : Nat) (p : Params) :
    BondInv X ⟨h, State.revealPhase cur s p⟩ := by
  obtain ⟨_, _, _, _, _, heq⟩ := State.revealPhase_frame cur s p
  rw [heq]
  exact hinv.congr hinv.params rfl rfl rfl hinv.rates rfl

theorem BondInv.blockRun (hinv : BondInv X ⟨h, s⟩) (hrun : State.BlockRun X s s') :
    BondInv X ⟨h, s'⟩ := by
  obtain ⟨hparams, hseq, hrates, released, hperm, hops⟩ := hrun.settles hinv.stamped
  have hsub : ∀ e ∈ s'.encTxs.entries, e ∈ s.encTxs.entries := fun e he =>
    hperm.mem_iff.mpr (List.mem_append_right _ he)
  have hgone : ∀ e ∈ released, e ∈ s.encTxs.entries := fun e he =>
    hperm.mem_iff.mpr (List.mem_append_left _ he)
  refine ⟨hparams ▸ hinv.params, fun e he => hinv.stamped e (hsub e he), hrates ▸ hinv.rates,
    fun e he => ?_, ?_⟩
  · obtain ⟨hpast, hwindow, d, hpos, heq, hd⟩ := hinv.spaced e (hsub e he)
    exact ⟨hpast, hwindow, d, hpos, heq.trans hseq.symm, by simpa only [hrates] using hd⟩
  · obtain ⟨settled, hsettled, hledger⟩ := hinv.ledger
    refine ⟨settled ++ released, fun e he => ?_, ?_⟩
    · cases List.mem_append.mp he with
      | inl he => exact hsettled e he
      | inr he => exact (hinv.stamped e (hgone e he)).burn
    · have hescrows : ((settled ++ s.encTxs.entries).flatMap EncTx.escrowOps).Perm
          ((settled ++ released ++ s'.encTxs.entries).flatMap EncTx.escrowOps) := by
        refine List.Perm.flatMap_right _ ?_
        rw [List.append_assoc]
        exact hperm.append_left settled
      have hsplit : (settled ++ released).flatMap EncTx.settleOps
          = settled.flatMap EncTx.settleOps ++ released.flatMap EncTx.settleOps :=
        List.flatMap_append
      simp only [hops]
      rw [hsplit, ← List.append_assoc]
      exact (hledger.trans (hescrows.append_right _)).append_right _

theorem BondInv.step (hinv : BondInv X ⟨ctx.height, s⟩) (a : Action) :
    BondInv X ⟨ctx.height, s.step X ctx a⟩ := by
  have horElse {r : Except String State} :
      (∀ s', r = .ok s' → BondInv X ⟨ctx.height, s'⟩) → BondInv X ⟨ctx.height, s.orElse r⟩ :=
    State.orElse_keeps (P := fun t => BondInv X ⟨ctx.height, t⟩) hinv
  cases a with
  | updateParams msg =>
    refine horElse fun s' h => ?_
    obtain ⟨p, hvalid, rfl, -⟩ := State.updateParams_spec h
    exact hinv.congr hvalid rfl rfl rfl hinv.rates rfl
  | commitTx msg =>
    refine horElse fun s' h => ?_
    obtain ⟨_, _, _, _, rfl⟩ := State.commitTx_frame h
    exact hinv.congr hinv.params rfl rfl rfl hinv.rates rfl
  | revealTx msg =>
    refine horElse fun s' h => ?_
    obtain ⟨_, rfl⟩ := State.revealTx_frame h
    exact hinv.congr hinv.params rfl rfl rfl hinv.rates rfl
  | submitEncrypted escrowed msg => exact horElse fun s' h => hinv.submit h
  | beginBlock exec =>
    show BondInv X ⟨ctx.height, s.beginBlock X ctx exec⟩
    cases @State.beginBlock_run X ctx exec s with
    | inl hsame =>
      rw [hsame]
      exact hinv
    | inr hrun => exact (hinv.gcEncSubmitRate.revealPhase _ _).blockRun hrun
  | submitDecryptionShare | dkgDeal | dkgComplaint | consumeVoteExtensions
  | ingestDecryptShareFromVE | endBlockDKG => exact hinv.accounts (State.step_accounts s rfl)

theorem Reachable.bondInv {allow : Allow} {gs : GenesisState} {c : Chain} (hempty : gs.encTxs = [])
    (hreach : Reachable X allow gs h c) : BondInv X c := by
  refine hreach.invariant (I := BondInv X) (fun s hs => ?_) fun c ctx a hle _ hc => ?_
  · have himp := State.initGenesis_imported hs
    obtain ⟨hacc, hstate⟩ := State.initGenesis_spec hs
    obtain ⟨cs, g, sc, hrec⟩ := State.importRecords_eq gs
    rw [hempty, List.foldl_nil, hrec] at hstate
    subst hstate
    refine ⟨hacc.params, fun e he => ?_, fun _ => Nat.zero_le _, fun e he => ?_, [], ?_⟩
    · cases he
    · cases he
    · exact ⟨by simp, .refl _⟩
  · exact (hc.advance hle).step a

end Chain

/-! ## Conservation -/

/-- **The bond escrow is conserved.** In every state of every run that starts with an empty pool,
whatever governance does to the bond, its denom and its burn portion in between:

* the module account's net holdings of each denom are the bonds of the stored ciphertexts;
* no stored ciphertext burns more than its bond;
* every escrow is that of a stored ciphertext or of one that was settled, once;
* an accepted submission stores one ciphertext, under a key that was free, stamped with the bond,
  the denom and the burn portion of the params, and escrows that bond from its submitter;
* a block settles exactly the ciphertexts it releases, each by burning its stamped portion and
  refunding the rest to its submitter. -/
theorem bondEscrow_conserved {allow : Allow} {gs : GenesisState} {h : Nat} {c : Chain}
    (hempty : gs.encTxs = []) (hreach : Chain.Reachable X allow gs h c) :
    (∀ denom, c.state.bondHoldings denom = c.state.bondsStored denom)
    ∧ (∀ e ∈ c.state.encTxs.entries, e.bondBurn ≤ e.bond)
    ∧ (∃ settled, c.state.LedgerOf settled)
    ∧ (∀ (ctx : Ctx) (escrowed : Bool) (msg : MsgSubmitEncrypted) (s' : State),
      c.height ≤ ctx.height → c.state.submitEncrypted X ctx escrowed msg = .ok s' →
      ∃ e : EncTx, c.state.encTxs.get? e.key = none
        ∧ s'.encTxs.entries.Perm (e :: c.state.encTxs.entries)
        ∧ s'.bankOps = c.state.bankOps ++ e.escrowOps
        ∧ e.submitter = msg.submitter.1 ∧ e.bond = c.state.params.encSubmitBond
        ∧ (e.bond ≠ 0 → e.bondDenom = c.state.params.encSubmitBondDenom)
        ∧ e.bondBurn
          = c.state.params.encSubmitBond * c.state.params.encSubmitBondBurnBps / 10000)
    ∧ ∀ (ctx : Ctx) (exec : Executor), ∃ released : List EncTx,
      c.state.encTxs.entries.Perm (released ++ (c.state.beginBlock X ctx exec).encTxs.entries)
        ∧ (c.state.beginBlock X ctx exec).bankOps
          = c.state.bankOps ++ released.flatMap EncTx.settleOps := by
  have hinv := hreach.bondInv hempty
  obtain ⟨settled, hledger⟩ := hinv.ledger
  refine ⟨hledger.holdings, fun e he => (hinv.stamped e he).burn, ⟨settled, hledger⟩, ?_, ?_⟩
  · intro ctx escrowed msg s' hle hok
    obtain ⟨-, -, -, -, -, e, hsub, -, hkey, hbond, hstamp, hburn, htx, hops⟩ :=
      State.submitEncrypted_stores hok
    have hfresh : c.state.encTxs.get? e.key = none := hkey ▸ (hinv.advance hle).fresh
    have hput := put_perm c.state.encTxs e
    rw [del_of_get?_none hfresh, ← htx] at hput
    exact ⟨e, hfresh, hput, hops, hsub, hbond, fun hne => (hstamp hne).1, hburn⟩
  · intro ctx exec
    cases @State.beginBlock_run X ctx exec c.state with
    | inl hsame => exact ⟨[], by simp [hsame], by simp [hsame]⟩
    | inr hrun =>
      obtain ⟨_, _, _, _, _, heq⟩ := State.revealPhase_frame ctx.height
        (c.state.gcEncSubmitRate ctx.height) c.state.params
      rw [heq] at hrun
      obtain ⟨-, -, -, released, hperm, hsettle⟩ := hrun.settles hinv.stamped
      exact ⟨released, hperm, hsettle⟩

namespace Sample

/-- Governance lowers the bond and the portion burned of it. -/
def cheaperBond : MsgUpdateParams :=
  { authority := bytesOf "cosmos10d07y265gmmuvt4z0w9aw880jnsr700j6zn9kn"
    params := some { params with encSubmitBond := 400, encSubmitBondBurnBps := 2500 } }

end Sample

open Sample

/-- Two submissions under different bonds, both settled under the later params, each as it was
stamped. -/
theorem bondEscrow_conserved_settled : ∃ c,
    Chain.Reachable primitives (fun _ _ _ => True) (genesis 7 []) 10 c
      ∧ c.state.bankOps = [.escrow account (bytesOf "stake") 1000000,
        .escrow account (bytesOf "stake") 400, .burn (bytesOf "stake") 1000000,
        .burn (bytesOf "stake") 100, .refund account (bytesOf "stake") 300]
      ∧ c.state.bondHoldings (bytesOf "stake") = c.state.bondsStored (bytesOf "stake") := by
  obtain ⟨c, hreach, hops⟩ : ∃ c, Chain.Reachable primitives (fun _ _ _ => True)
      (genesis 7 []) 10 c
        ∧ c.state.bankOps = [.escrow account (bytesOf "stake") 1000000,
          .escrow account (bytesOf "stake") 400, .burn (bytesOf "stake") 1000000,
          .burn (bytesOf "stake") 100, .refund account (bytesOf "stake") 300] :=
    Chain.exists_reachable
      [(block 10 (by decide), .submitEncrypted true submission),
       (block 10 (by decide), .updateParams cheaperBond),
       (block 10 (by decide), .submitEncrypted true submission),
       (block 43 (by decide), .beginBlock noExecutor)]
      (by decide +kernel)
  exact ⟨c, hreach, hops, (bondEscrow_conserved rfl hreach).1 _⟩

end EncMempool
