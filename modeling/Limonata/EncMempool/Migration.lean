import Limonata.EncMempool.CommitReveal
import Limonata.EncMempool.Registry

/-!
# x/encmempool — export and import

`ExportGenesis` followed by `InitGenesis` is meant to carry the module over to a new chain without
loss. Everything that is exported does come back (`Migrated`). Three records are left out on the
argument that they rebuild themselves: the complaints of an open round, the sequence counter of the
commits and the height of the last rekey. None of them does, and this file says exactly when that
matters.
-/

namespace EncMempool

open Machine Check RecStore State

variable {X : External} {ctx : Ctx}
variable {s s' : State}

/-! ## What comes back -/

/-- What a migrated state has in common with the state it was exported from. -/
structure State.Migrated (s s' : State) : Prop where
  params : s'.params = s.params
  commits : s'.commits = s.commits
  pending : s'.pending = s.pending
  encSeq : s'.encSeq = s.encSeq
  encTxs : s'.encTxs = s.encTxs
  /-- The shares come back unverified. -/
  encShares : ∀ k, s'.encShares.get? k
    = (s.encShares.get? k).map fun sh => { sh with verified := false }
  rounds : s'.rounds = s.rounds
  dealings : s'.dealings = s.dealings
  activeKeys : s'.activeKeys = s.activeKeys
  currentEpoch : s'.currentEpoch = s.currentEpoch
  activeEpoch : s'.activeEpoch = s.activeEpoch
  encPubKeys : s'.encPubKeys = s.encPubKeys
  encKeyOwners : s'.encKeyOwners = s.encKeyOwners

/-- What a migrated state starts without. -/
structure State.Forgotten (s' : State) : Prop where
  seq : s'.seq = 0
  complaints : s'.complaints = .empty
  lastRekeyHeight : s'.lastRekeyHeight = 0

namespace State

theorem foldl_setCommit_commits (cs : List Commit) (s : State) :
    (cs.foldl setCommit s).commits = cs.foldl RecStore.put s.commits := by
  induction cs generalizing s with
  | nil => rfl
  | cons c cs ih =>
    have hput : (s.setCommit c).commits = s.commits.put c := by
      unfold setCommit
      simp only
      split_ifs <;> rfl
    rw [List.foldl_cons, ih, hput, List.foldl_cons]

theorem initGenesis_eq {gs : GenesisState} (h : initGenesis X gs = .ok s') :
    ∃ g sub ep, s' = { importRecords gs with
      encTxs := gs.encTxs.foldl RecStore.put .empty
      globalEncCount := g, submitterEncCounts := sub, epochEncCounts := ep } := by
  obtain ⟨-, rfl⟩ := initGenesis_spec h
  obtain ⟨g, sub, ep, heq⟩ := foldl_importEncTx_frame gs.encTxs (importRecords gs)
  obtain ⟨c, gc, sc, hrec⟩ := importRecords_eq gs
  have hempty : (importRecords gs).encTxs = .empty := by rw [hrec]; rfl
  rw [hempty] at heq
  exact ⟨g, sub, ep, heq⟩

theorem migrated (hreg : s.RegistryInv X) (h : initGenesis X s.exportGenesis = .ok s') :
    Migrated s s' ∧ Forgotten s' := by
  obtain ⟨g, sub, ep, rfl⟩ := initGenesis_eq h
  obtain ⟨c, gc, sc, hrec⟩ := importRecords_eq s.exportGenesis
  have hcommits : (importRecords s.exportGenesis).commits = s.commits := by
    refine (foldl_setCommit_commits s.exportGenesis.commits _).trans ?_
    exact s.commits.load_entries
  have hpub : (importRecords s.exportGenesis).encPubKeys = s.encPubKeys := by
    rw [hrec]
    simp only [exportGenesis, List.foldl_map]
    exact s.encPubKeys.load_entries
  have hload := GenesisState.checkEncKeys_sound (initGenesis_spec h).1.encKeys
  -- the reverse index is determined by the forward one
  have howners : (importRecords s.exportGenesis).encKeyOwners = s.encKeyOwners := by
    have hpaired : (importRecords s.exportGenesis).encPubKeys.Paired
        (importRecords s.exportGenesis).encKeyOwners := by
      rw [hrec]
      exact .load EncKeyReg.operator EncKeyReg.key hload.1.1 hload.2.1.1
    rw [hpub] at hpaired
    exact hpaired.rev_unique hreg.paired
  refine ⟨⟨?_, hcommits, ?_, ?_, s.encTxs.load_entries, fun k => ?_, ?_, ?_, ?_, ?_, ?_, hpub,
    howners⟩, ⟨?_, ?_, ?_⟩⟩
  · simp only [hrec]
    rfl
  · simp only [hrec]
    exact s.pending.load_entries
  · simp only [hrec]
    rfl
  · simp only [hrec]
    exact s.encShares.get?_load_map (f := fun sh : EncShare => { sh with verified := false })
      (fun _ => rfl) k
  · simp only [hrec]
    exact s.rounds.load_entries
  · simp only [hrec]
    exact s.dealings.load_entries
  · simp only [hrec]
    exact s.activeKeys.load_entries
  · simp only [hrec]
    rfl
  · simp only [hrec]
    rfl
  · simp only [hrec]
    rfl
  · simp only [hrec]
    rfl
  · simp only [hrec]
    rfl

/-! ## Finalizing an open round -/

/-- The dealings of a round, as the aggregation reads them. -/
def pubDealings (s : State) (round : DkgRound) : List PublicDealing :=
  (s.dealings.entries.filter (fun d => d.epoch = round.epoch)).map fun d =>
    { dealer := d.dealerIndex, commitments := d.commitments }

/-- The dealers of a round that have an accepted complaint against them. -/
def accused (s : State) (round : DkgRound) : List Nat :=
  (s.complaints.entries.filter (fun c => c.epoch = round.epoch)).map DkgComplaintRec.against

/-- A member of the round with a well-formed dealing. -/
def Dealt (X : External) (s : State) (round : DkgRound) (i : Nat) : Prop :=
  i ∈ round.members.map RoundMember.index
    ∧ (dealingPoints X round.threshold (s.pubDealings round) i).isSome = true

/-- The outcome of finalizing a round: the key installed for it and its record. -/
def finalizeOutcome (X : External) (s : State) (round : DkgRound) :
    Option ActiveThresholdKey × Option DkgRound :=
  ((s.finalizeRound X round).activeKeys.get? round.epoch,
    (s.finalizeRound X round).rounds.get? round.epoch)

theorem finalizeOutcome_eq (s : State) (round : DkgRound) :
    s.finalizeOutcome X round = match s.finalizeResult X round with
      | .ok res => (some (installedKey round res), some { round with status := .active })
      | .error _ => (s.activeKeys.get? round.epoch, some { round with status := .failed }) := by
  unfold finalizeOutcome
  obtain ⟨err, hres, heq⟩ | ⟨res, sk, cu, hres, -, heq⟩ := @finalizeRound_cases X s round
  · rw [hres, heq]
    exact Prod.ext rfl (get?_put_self s.rounds { round with status := .failed })
  · have hkey := get?_put_self s.activeKeys (installedKey round res)
    have hround := get?_put_self s.rounds { round with status := .active }
    rw [hres, heq]
    -- the pruned epoch is not the one that serves now
    obtain ⟨hsame, -⟩ | ⟨hne, -, -, -, hpruned⟩ := maybePruneEpoch_cases _ s.activeEpoch
    · rw [hsame]
      exact Prod.ext hkey hround
    · rw [hpruned]
      exact Prod.ext ((get?_del_of_ne (Ne.symm hne)).trans hkey)
        ((get?_del_of_ne (Ne.symm hne)).trans hround)

theorem finalizeResult_forgotten (h : Migrated s s') (h' : Forgotten s') (round : DkgRound) :
    s'.finalizeResult X round
      = finalizePublicWeighted X (round.members.map RoundMember.index) round.threshold
        (s.pubDealings round) [] (fun i => (memberPoints round.members i).getD 1)
        round.threshold := by
  unfold finalizeResult pubDealings
  rw [h.dealings, h'.complaints]
  rfl

theorem finalizePublicWeighted_disqualified {members : List Nat} {degree : Nat}
    {dealings : List PublicDealing} {disq : List Nat} {weightOf : Nat → Nat} {q : Nat}
    (h : ∀ m ∈ members, (dealingPoints X degree dealings m).isSome = true → m ∉ disq) :
    finalizePublicWeighted X members degree dealings disq weightOf q
      = finalizePublicWeighted X members degree dealings [] weightOf q := by
  have hqual : (members.insertionSort (· ≤ ·)).filter (fun m =>
        (dealingPoints X degree dealings m).isSome && !disq.contains m)
      = (members.insertionSort (· ≤ ·)).filter (fun m =>
        (dealingPoints X degree dealings m).isSome && !([] : List Nat).contains m) := by
    refine List.filter_congr fun m hm => ?_
    have hmem : m ∈ members := (List.perm_insertionSort _ _).mem_iff.mp hm
    cases hdealt : (dealingPoints X degree dealings m).isSome with
    | false => rfl
    | true =>
      have hnot := h m hmem hdealt
      simp [hnot]
  unfold finalizePublicWeighted
  simp only [hqual]

/-- The round comes out the same in the migrated state. -/
def SameFinalize (X : External) (s s' : State) (round : DkgRound) : Prop :=
  s'.finalizeOutcome X round = s.finalizeOutcome X round

/-- **When a migration keeps the outcome of a round.** Either no complaint is against a member that
dealt, or the round fails whether or not the complaints count. -/
theorem sameFinalize_iff (h : Migrated s s') (h' : Forgotten s') (round : DkgRound) :
    SameFinalize X s s' round
      ↔ (∀ i, s.Dealt X round i → i ∉ s.accused round)
        ∨ ((∃ e, s.finalizeResult X round = .error e)
          ∧ ∃ e, ({ s with complaints := .empty } : State).finalizeResult X round = .error e) := by
  have hforgot := @finalizeResult_forgotten X s s' h h' round
  have hempty : ({ s with complaints := .empty } : State).finalizeResult X round
      = s'.finalizeResult X round := hforgot.symm ▸ rfl
  have hresult : s.finalizeResult X round
      = finalizePublicWeighted X (round.members.map RoundMember.index) round.threshold
        (s.pubDealings round) (s.accused round) (fun i => (memberPoints round.members i).getD 1)
        round.threshold := rfl
  rw [hempty]
  unfold SameFinalize
  rw [finalizeOutcome_eq, finalizeOutcome_eq, h.activeKeys]
  constructor
  · intro hsame
    cases hold : s.finalizeResult X round with
    | error e =>
      cases hnew : s'.finalizeResult X round with
      | error e' => exact .inr ⟨⟨e, rfl⟩, e', rfl⟩
      | ok res' => simp [hold, hnew] at hsame
    | ok res =>
      cases hnew : s'.finalizeResult X round with
      | error e' => simp [hold, hnew] at hsame
      | ok res' =>
        left
        rw [hold, hnew] at hsame
        have hqual : res'.qual = res.qual := by
          simp only [installedKey, Prod.mk.injEq, Option.some.injEq,
            ActiveThresholdKey.mk.injEq] at hsame
          exact hsame.1.2.2.2.2
        rw [(finalizePublicWeighted_spec (hforgot.symm.trans hnew)).1,
          (finalizePublicWeighted_spec (hresult.symm.trans hold)).1] at hqual
        rintro i ⟨hmem, hdealt⟩ haccused
        -- the accused member is in one list and not in the other
        have hin : i ∈ ((round.members.map RoundMember.index).insertionSort (· ≤ ·)).filter
            (fun m => (dealingPoints X round.threshold (s.pubDealings round) m).isSome
              && !([] : List Nat).contains m) :=
          List.mem_filter.mpr ⟨(List.perm_insertionSort _ _).mem_iff.mpr hmem, by simp [hdealt]⟩
        rw [hqual] at hin
        have hout := (List.mem_filter.mp hin).2
        simp [haccused] at hout
  · rintro (hclean | ⟨⟨e, hold⟩, e', hnew⟩)
    · rw [hforgot, hresult, finalizePublicWeighted_disqualified fun m hm hdealt =>
        hclean m ⟨hm, hdealt⟩]
    · rw [hold, hnew]

/-! ## Committing after the import -/

theorem foldl_setCommit_counts {cs : List Commit} (hnodup : (cs.map Commit.key).Nodup)
    (hfresh : ∀ c ∈ cs, s.commits.get? c.key = none) (hglobal : s.globalCommitCount.getD 0 < 2 ^ 64)
    (hsender : ∀ a, (s.senderCommitCounts.lookup a).getD 0 < 2 ^ 64) :
    (cs.foldl setCommit s).globalCommitCount.getD 0
        = wrap64 (s.globalCommitCount.getD 0 + cs.length)
      ∧ ∀ a, ((cs.foldl setCommit s).senderCommitCounts.lookup a).getD 0
        = wrap64 ((s.senderCommitCounts.lookup a).getD 0 + cs.countP fun c => c.sender = a) := by
  induction cs generalizing s with
  | nil => exact ⟨(wrap64_of_lt hglobal).symm, fun a => (wrap64_of_lt (hsender a)).symm⟩
  | cons c cs ih =>
    obtain ⟨hnew, hnodup⟩ := List.nodup_cons.mp hnodup
    have hkey : s.commits.get? c.key = none := hfresh c List.mem_cons_self
    have hset : s.setCommit c
        = { s.incCommitCount c.sender with commits := s.commits.put c } := by
      unfold setCommit
      rw [if_neg (by simp [RecStore.has, hkey])]
      rfl
    have hrest : ∀ x ∈ cs, (s.setCommit c).commits.get? x.key = none := by
      intro x hx
      rw [hset, get?_put, if_neg]
      · exact hfresh x (.tail _ hx)
      · exact fun heq => hnew (heq ▸ List.mem_map_of_mem hx)
    have hg : (s.setCommit c).globalCommitCount.getD 0
        = wrap64 (s.globalCommitCount.getD 0 + 1) := by
      rw [hset]
      rfl
    have hs (a : Bytes) : ((s.setCommit c).senderCommitCounts.lookup a).getD 0
        = wrap64 ((s.senderCommitCounts.lookup a).getD 0 + if c.sender = a then 1 else 0) := by
      rw [hset]
      show ((s.senderCommitCounts.update c.sender incCount).lookup a).getD 0 = _
      rw [KVStore.lookup_update]
      by_cases ha : a = c.sender
      · rw [if_pos ha, if_pos ha.symm, ha]
        rfl
      · rw [if_neg ha, if_neg (Ne.symm ha)]
        exact (wrap64_of_lt (hsender a)).symm
    obtain ⟨ihg, ihs⟩ := ih hnodup hrest (by rw [hg]; exact wrap64_lt _)
      (fun a => by rw [hs]; exact wrap64_lt _)
    refine ⟨?_, fun a => ?_⟩
    · rw [List.foldl_cons, ihg, hg, List.length_cons]
      simp only [wrap64]
      omega
    · rw [List.foldl_cons, ihs, hs, List.countP_cons]
      simp only [wrap64, decide_eq_true_eq]
      omega

/-- A commit accepted in this state is stored under a free key, at whatever height. -/
def CommitsFresh (s : State) : Prop :=
  ∀ (ctx : Ctx) (msg : MsgCommitTx) (s' : State), s.commitTx ctx msg = .ok s' →
    s.commits.get? (toLex (ctx.height, toLex (msg.sender.1, s.seq))) = none

/-- Whether there is room for another commit of this sender. -/
def CommitRoom (s : State) (sender : Bytes) : Prop :=
  wrap64 s.commits.entries.length < maxInFlightCommits
    ∧ wrap64 (s.commits.count fun c => c.sender = sender) < maxCommitsPerSender

/-- **When a migrated state overwrites a commit.** The counter restarts at zero, so the stored
commits with sequence number zero are in reach, as long as there is room for another commit of
their sender. -/
theorem commitsFresh_iff (h : initGenesis X s.exportGenesis = .ok s') (hm : Migrated s s')
    (hf : Forgotten s') :
    s'.CommitsFresh ↔ ∀ c ∈ s.commits.entries, c.seq = 0 → c.sender ≠ [] → c.height < 2 ^ 63 →
      ¬ s.CommitRoom c.sender := by
  obtain ⟨hglobal, hsender⟩ : s'.globalCommitCount.getD 0 = wrap64 s.commits.entries.length
      ∧ ∀ a, (s'.senderCommitCounts.lookup a).getD 0
        = wrap64 (s.commits.count fun c => c.sender = a) := by
    obtain ⟨g, sub, ep, rfl⟩ := initGenesis_eq h
    obtain ⟨hg, hs⟩ := @foldl_setCommit_counts
      { init with params := s.params } s.commits.entries s.commits.nodup_keys (fun _ _ => rfl)
      (Nat.two_pow_pos 64) (fun _ => Nat.two_pow_pos 64)
    refine ⟨hg.trans (congrArg wrap64 (Nat.zero_add _)), fun a => ?_⟩
    exact (hs a).trans (congrArg wrap64 (Nat.zero_add _))
  constructor
  · intro hfresh c hc hseq hne hheight hroom
    let ctx : Ctx :=
      { height := c.height, height_lt := hheight, bonded := [], bonded_nodup := List.nodup_nil
        tokens_nonneg := by simp, voteExtEnableHeight := none, maxBlockBytes := none
        maxBlockGas := none, chainID := [] }
    let msg : MsgCommitTx := { sender := ⟨c.sender, hne⟩, commitHash := beBytes 32 0 }
    let stored : Commit :=
      { sender := c.sender, commitHash := msg.commitHash, height := c.height, seq := s'.seq }
    have haccept : s'.commitTx ctx msg
        = .ok ({ s' with seq := wrap64 (s'.seq + 1) }.setCommit stored) := by
      simp only [commitTx, bind_unit_eq_ok, rejectIf_eq_ok]
      refine ⟨not_not.mpr rfl, ?_, ?_, rfl⟩
      · rw [hglobal]
        exact Nat.not_le.mpr hroom.1
      · rw [hsender]
        exact Nat.not_le.mpr hroom.2
    have hfree := hfresh ctx msg _ haccept
    have hstored : s.commits.get? (toLex (c.height, toLex (c.sender, c.seq))) = some c :=
      (mem_entries_iff _ _).mp hc
    rw [hm.commits, hf.seq, ← hseq] at hfree
    exact Option.some_ne_none _ (hstored.symm.trans hfree)
  · intro hclosed ctx msg t ht
    by_contra hsome
    obtain ⟨c, hc⟩ := Option.ne_none_iff_exists'.mp hsome
    rw [hm.commits, hf.seq] at hc
    have hkey : c.key = toLex (ctx.height, toLex (msg.sender.1, 0)) := key_of_get? hc
    simp only [Commit.key, toLex_inj, Prod.mk.injEq] at hkey
    obtain ⟨hheight, hsend, hseq⟩ := hkey
    simp only [commitTx, bind_unit_eq_ok, rejectIf_eq_ok] at ht
    obtain ⟨-, hg, hs, -⟩ := ht
    rw [hglobal] at hg
    rw [hsender] at hs
    refine hclosed c (mem_of_get? hc) hseq (hsend ▸ msg.sender.2)
      (hheight ▸ ctx.height_lt) ⟨Nat.not_le.mp hg, ?_⟩
    rw [hsend]
    exact Nat.not_le.mp hs

/-! ## The flap dampener -/

/-- From height `n` on the dampener decides the same in both states. -/
def SameDampener (s s' : State) (n : Nat) : Prop :=
  ∀ h, n ≤ h → rekeyDampened s' s'.params h = rekeyDampened s s.params h

/-- A migrated state never dampens, so the decision is the same once the dampener has run out. -/
theorem sameDampener_iff (hf : Forgotten s') (n : Nat) :
    SameDampener s s' n ↔ s.params.dkgMinRekeyGap = 0 ∨ s.lastRekeyHeight = 0
      ∨ addSat s.lastRekeyHeight s.params.dkgMinRekeyGap ≤ n := by
  have hnever (h : Nat) : rekeyDampened s' s'.params h = false := by
    simp [rekeyDampened, hf.lastRekeyHeight]
  unfold SameDampener
  simp only [hnever]
  constructor
  · intro hsame
    have hnow := of_decide_eq_false (hsame n le_rfl).symm
    omega
  · intro hout h hle
    refine (decide_eq_false ?_).symm
    omega

end State

namespace Sample

/-- The second member's complaint about the dealer's share. -/
def complaint (epoch : Nat) : MsgDkgComplaint :=
  { accuser := ⟨account, account_ne⟩, epoch := epoch, against := 1
    sharedPoint := (poisonReport epoch).sharedPoint, dleqProof := (poisonReport epoch).dleqProof }

theorem ten_lt : 10 < 2 ^ 63 := by decide

theorem eleven_lt : 11 < 2 ^ 63 := by decide

/-- The pair's round is open inside the rekey gap, its dealer has dealt and has been accused, and a
commit is stored. -/
def accusedRun : List (Ctx × Action) :=
  [(pairBlock 10 ten_lt, .endBlockDKG), (pairBlock 10 ten_lt, .commitTx commitMsg),
   (pairBlock 11 eleven_lt, .dkgDeal (poisonedDeal 2)),
   (pairBlock 11 eleven_lt, .dkgComplaint (complaint 2))]

theorem pairPrimitives_encodesPoints : EncodesPoints pairPrimitives :=
  .ofTables (by decide +kernel) (by decide +kernel)

end Sample

open Sample

end EncMempool
