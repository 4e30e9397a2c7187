import Limonata.EncMempool.Complaints
import Limonata.EncMempool.ShareKeys

/-!
# x/encmempool — the capacity of the complaint window

`complaintWindowFloor` sizes the window by the quota each block has for one accuser. Between the deal
deadline and the complaint deadline the dealings of the open round do not change (`Keeps`), so an
accuser can send the same list in every block:

* the writes around the complaints leave the round, its dealings and the negative cache alone
  (`message_keeps`, `endBlockDKG_keeps`),
* what other operators send burns none of the accuser's points (`ingestComplaints_other`),
* a block takes eight of the complaints that are not stored yet, or all (`ingestComplaints_progress`).
-/

namespace EncMempool

open Check Machine RecStore State

variable {s' s₀ : State} {epoch idx : Nat} {members : List RoundMember} {c : VoteExtComplaint}
  {e : VEEntry} {canon entries : List VEEntry} {b : Block} {bs : List Block}
  {L : List VoteExtComplaint}

variable {X : External} {ctx : Ctx}

/-! ## What a round's complaints rest on -/

/-- The latest round is still `r`; what the negative cache of its epoch has of the accuser `me` is the
same, its complaints have only become more, and once dealing is closed its dealings are the same. -/
structure Keeps (r : DkgRound) (me : Nat) (closed : Prop) (s s' : State) : Prop where
  round : s'.lastRound = some r
  rejected : ∀ against p, s'.rejectedComplaints.has (key4 r.epoch against me p)
    = s.rejectedComplaints.has (key4 r.epoch against me p)
  complaints : ∀ against idx, s.complaints.has (key3 r.epoch against idx) = true →
    s'.complaints.has (key3 r.epoch against idx) = true
  dealings : closed → ∀ d : Dealing, d.epoch = r.epoch →
    (d ∈ s'.dealings.entries ↔ d ∈ s.dealings.entries)

namespace Keeps

variable {r : DkgRound} {me : Nat} {closed : Prop} {s s' s'' : State}

theorem refl (h : s.lastRound = some r) : Keeps r me closed s s :=
  ⟨h, fun _ _ => rfl, fun _ _ h => h, fun _ _ _ => Iff.rfl⟩

theorem trans (h : Keeps r me closed s s') (h' : Keeps r me closed s' s'') : Keeps r me closed s s'' where
  round := h'.round
  rejected against p := (h'.rejected against p).trans (h.rejected against p)
  complaints against idx hc := h'.complaints against idx (h.complaints against idx hc)
  dealings hclosed d hd := (h'.dealings hclosed d hd).trans (h.dealings hclosed d hd)

theorem mono (h : Keeps r me closed s s') {closed' : Prop} (hclosed : closed' → closed) :
    Keeps r me closed' s s' :=
  ⟨h.round, h.rejected, h.complaints, fun hc => h.dealings (hclosed hc)⟩

/-- The records the relation reads. -/
def records (s : State) :=
  (s.rounds, s.currentEpoch, s.dealings, s.complaints, s.rejectedComplaints)

theorem of_records (h : s.lastRound = some r) (heq : records s' = records s) :
    Keeps r me closed s s' := by
  simp only [records, Prod.mk.injEq] at heq
  obtain ⟨hrounds, hcur, hdeal, hcomp, hrej⟩ := heq
  refine ⟨?_, fun _ _ => by rw [hrej], fun _ _ hc => hcomp ▸ hc, fun _ _ _ => by rw [hdeal]⟩
  unfold lastRound at h ⊢
  rwa [hrounds, hcur]

theorem of_core (h : s.lastRound = some r) (heq : s'.core = s.core) : Keeps r me closed s s' :=
  of_records h (congrArg records heq : records s'.core = records s.core)

theorem foldl {α : Type} {f : State → α → State} {as : List α} (h : s.lastRound = some r)
    (hstep : ∀ t, ∀ a ∈ as, t.lastRound = some r → Keeps r me closed t (f t a)) :
    Keeps r me closed s (as.foldl f s) :=
  Reach.foldl_keeps (I := fun t => Keeps r me closed s t)
    (fun t a ha ht => ht.trans (hstep t a ha ht.round)) (refl h)

end Keeps

variable {r : DkgRound} {me : Nat} {closed : Prop} {s : State}

section

variable (h : s.lastRound = some r)

include h

theorem maybePruneEpoch_keeps (ep : Nat) : Keeps r me closed s (s.maybePruneEpoch ep) := by
  obtain ⟨hsame, -⟩ | ⟨-, hcur, -, -, hpruned⟩ := maybePruneEpoch_cases s ep
  · rw [hsame]
    exact .refl h
  · obtain ⟨hround, hepoch, hpos⟩ := get?_of_lastRound h
    have hne : r.epoch ≠ ep := fun heq => hcur (heq.symm.trans hepoch)
    rw [hpruned]
    -- a key of the round's epoch is not one of the pruned epoch
    have hkept {α : Type} (k : ℕ ×ₗ α) (hk : keyHead k = r.epoch) : decide (keyHead k = ep) = false :=
      decide_eq_false (hk ▸ hne)
    refine ⟨?_, fun against p => ?_, fun against idx hc => ?_, fun _ d hd => ?_⟩
    · unfold lastRound at h ⊢
      simpa [hpos, get?_del, hcur.symm] using h
    · simp only [RecStore.has, get?_delWhere, hkept (key4 r.epoch against me p) rfl,
        Bool.false_eq_true, if_false]
    · simpa only [RecStore.has, get?_delWhere, hkept (key3 r.epoch against idx) rfl,
        Bool.false_eq_true, if_false] using hc
    · rw [mem_delWhere_iff]
      exact and_iff_left (hkept d.key hd)

theorem releaseEncTx_keeps (e : EncTx) : Keeps r me closed s (s.releaseEncTx X e) := by
  have hgone : Keeps r me closed s (s.withoutEncTx e) := .of_records h rfl
  have hpruned : Keeps r me closed s ((s.withoutEncTx e).maybePruneEpoch e.epoch) :=
    hgone.trans (maybePruneEpoch_keeps hgone.round e.epoch)
  exact hpruned.trans (.of_core hpruned.round (releaseEncTx_core s e))

theorem beginBlock_keeps (exec : Executor) : Keeps r me closed s (s.beginBlock X ctx exec) := by
  cases beginBlock_run exec s with
  | inl hsame =>
    rw [hsame]
    exact .refl h
  | inr hrun =>
    have hreveal : Keeps r me closed s (revealPhase ctx.height (s.gcEncSubmitRate ctx.height)
        s.params) := .of_core h (revealPhase_core _ _ _)
    refine Reach.run_keeps (I := fun t => Keeps r me closed s t) (fun t t' hstep ht => ?_) hrun hreveal
    cases hstep with
    | strand | heal => exact ht.trans (.of_records ht.round rfl)
    | @release e => exact ht.trans (releaseEncTx_keeps ht.round e)

/-- A dealing by message is one of an epoch that is still dealing. -/
theorem dkgDeal_keeps {msg : MsgDkgDeal} (hdeal : s.dkgDeal X ctx msg = .ok s') :
    Keeps r me (r.dealDeadline < ctx.height) s s' := by
  obtain ⟨round, new, hround, -, hdue, -, -, rfl⟩ := dkgDeal_spec hdeal
  refine ⟨h, fun _ _ => rfl, fun _ _ hc => hc, fun hclosed d hd => ?_⟩
  have hother : d.epoch ≠ new.epoch := by
    intro heq
    have hlast := (get?_of_lastRound h).1
    rw [← hd, heq, hround] at hlast
    exact absurd hclosed (Option.some.inj hlast ▸ Nat.not_lt.mpr hdue)
  rw [mem_put_iff]
  constructor
  · rintro (rfl | ⟨hd', -⟩)
    · exact absurd rfl hother
    · exact hd'
  · intro hd'
    exact .inr ⟨hd', fun hkey => hother (key2_inj.mp hkey).1⟩

theorem put_complaint_keeps (c : DkgComplaintRec) :
    Keeps r me closed s { s with complaints := s.complaints.put c } :=
  ⟨h, fun _ _ => rfl, fun _ _ hc => (has_put _ _ _).mpr (.inr hc), fun _ _ _ => Iff.rfl⟩

/-- The messages and the begin-block handler, which may come between the ingestion of a block's vote
extensions and its end. -/
def Action.insideBlock : Action → Prop
  | .consumeVoteExtensions _ | .endBlockDKG => False
  | _ => True

theorem step_keeps {a : Action} (ha : a.insideBlock) :
    Keeps r me (r.dealDeadline < ctx.height) s (s.step X ctx a) := by
  cases a with
  | updateParams msg =>
    refine orElse_keeps (.refl h) fun s' hs' => ?_
    obtain ⟨p, -, rfl, -⟩ := updateParams_spec hs'
    exact .of_records h rfl
  | commitTx msg =>
    refine orElse_keeps (.refl h) fun s' hs' => ?_
    obtain ⟨_, _, _, _, rfl⟩ := commitTx_frame hs'
    exact .of_records h rfl
  | revealTx msg =>
    refine orElse_keeps (.refl h) fun s' hs' => ?_
    obtain ⟨_, rfl⟩ := revealTx_frame hs'
    exact .of_records h rfl
  | submitEncrypted escrowed msg =>
    refine orElse_keeps (.refl h) fun s' hs' => ?_
    obtain ⟨_, _, _, _, _, _, _, _, rfl⟩ := submitEncrypted_frame hs'
    exact .of_records h rfl
  | submitDecryptionShare msg =>
    refine orElse_keeps (.refl h) fun s' hs' => ?_
    obtain ⟨-, -, -, rfl⟩ := submitDecryptionShare_spec hs'
    exact .of_records h rfl
  | dkgDeal msg => exact orElse_keeps (.refl h) fun _ hs' => dkgDeal_keeps h hs'
  | dkgComplaint msg =>
    refine orElse_keeps (.refl h) fun s' hs' => ?_
    obtain ⟨c, -, rfl⟩ := dkgComplaint_spec hs'
    exact put_complaint_keeps h c
  | consumeVoteExtensions entries => cases ha
  | ingestDecryptShareFromVE operator sh =>
    show Keeps r me _ s (s.ingestDecryptShareFromVE X ctx operator sh).1
    unfold ingestDecryptShareFromVE
    split_ifs
    · exact .refl h
    · split
      · exact .refl h
      · unfold verifyAndStoreDecryptShare
        split_ifs <;> exact .of_records h rfl
  | beginBlock exec => exact beginBlock_keeps h exec
  | endBlockDKG => cases ha

/-! ## The phases around the complaints -/

theorem announcePhase_keeps (canon : List VEEntry) :
    Keeps r me closed s (s.announcePhase X ctx canon) := by
  refine Keeps.foldl h fun t e _ ht => ?_
  obtain hsame | ⟨-, -, -, hnew⟩ :=
    @recordEncPubKey_cases X ctx t e.operator e.ve.encPubKey e.ve.encPubKeyPoP
  · rw [hsame]
    exact .refl ht
  · rw [hnew]
    exact .of_records ht rfl

theorem dealPhase_keeps (canon : List VEEntry) :
    Keeps r me (r.dealDeadline < ctx.height) s (s.dealPhase X ctx canon) := by
  unfold dealPhase
  rw [h]
  simp only
  split_ifs with hdue
  · refine Keeps.foldl h fun t e _ ht => ?_
    split
    · exact .refl ht
    · unfold ingestDealingFromVE
      have hstored (d : RecStore Dealing.key) :
          Keeps r me (r.dealDeadline < ctx.height) t { t with dealings := d } :=
        ⟨ht, fun _ _ => rfl, fun _ _ hc => hc, fun hclosed => absurd hclosed (by omega)⟩
      simp only
      split_ifs
      · exact .refl ht
      · exact .refl ht
      · exact .refl ht
      · split
        · exact .refl ht
        · exact hstored _
  · exact .refl h

theorem setComplaintRejected_keeps (hne : epoch ≠ r.epoch ∨ idx ≠ me) (against p : Nat) :
    Keeps r me closed s (s.setComplaintRejected epoch against idx p) := by
  refine ⟨h, fun a q => ?_, fun _ _ hc => hc, fun _ _ _ => Iff.rfl⟩
  rw [Bool.eq_iff_iff]
  refine (has_put _ _ _).trans (or_iff_right fun hkey => ?_)
  obtain ⟨hepoch, -, hidx, -⟩ := key4_inj.mp hkey
  exact hne.elim (fun h => h hepoch.symm) (fun h => h hidx.symm)

end

theorem ingestComplaints_keeps {ingest : State → VoteExtComplaint → State.ComplaintOutcome}
    (hstep : ∀ t c, t.lastRound = some r → Keeps r me closed t (ingest t c).state)
    (cs : List VoteExtComplaint) (verifies : Nat) {s : State} (h : s.lastRound = some r) :
    Keeps r me closed s (ingestComplaints ingest verifies s cs).1 := by
  induction cs generalizing verifies s with
  | nil => exact .refl h
  | cons c cs ih =>
    unfold ingestComplaints
    split_ifs
    · exact .refl h
    · have hc := hstep s c h
      exact hc.trans (ih _ hc.round)

theorem ingestEntries_keeps {ingest : State → VEEntry → State × Nat} {es : List VEEntry}
    (hstep : ∀ t, ∀ e ∈ es, Keeps r me closed s₀ t → Keeps r me closed t (ingest t e).1) {s : State}
    (h : Keeps r me closed s₀ s) : Keeps r me closed s (ingestEntries ingest s es).1 := by
  induction es generalizing s with
  | nil => exact .refl h.round
  | cons e es ih =>
    have hhead := hstep s e List.mem_cons_self h
    exact hhead.trans (ih (fun t e he => hstep t e (.tail _ he)) (h.trans hhead))

theorem ingestPoisonReportFromVE_keeps (h : s.lastRound = some r) {round : DkgRound}
    (hne : round.epoch ≠ r.epoch) (operator : Bytes) (c : VoteExtComplaint) :
    Keeps r me closed s (s.ingestPoisonReportFromVE X round operator c).state := by
  refine ingestPoisonReportFromVE_induct (P := fun o => Keeps r me closed s o.state) (.refl h)
    (fun idx _ _ => ?_) fun _ _ => setComplaintRejected_keeps h (.inl hne) _ _
  have hstored : Keeps r me closed s (s.setComplaint round.epoch c.against idx) :=
    put_complaint_keeps h _
  refine hstored.trans (.of_records hstored.round ?_)
  unfold forceDecryptHealthRekey
  split_ifs <;> rfl

theorem poisonPhase_keeps (h : s.lastRound = some r) (hopen : r.status = .isOpen)
    (canon : List VEEntry) : Keeps r me closed s (s.poisonPhase X canon).1 := by
  unfold poisonPhase
  split_ifs with hzero
  · exact .refl h
  · split
    · exact .refl h
    · rename_i round hround
      split_ifs with hactive
      · have hne : round.epoch ≠ r.epoch := by
          intro heq
          have hkey : round.epoch = s.activeEpoch := key_of_get? hround
          rw [← hkey, heq, (get?_of_lastRound h).1] at hround
          rw [← Option.some.inj hround, hopen] at hactive
          cases hactive
        refine ingestEntries_keeps (fun t e _ ht => ?_) (.refl h)
        refine ingestComplaints_keeps (fun u c hu => ?_) _ 0 ht.round
        exact ingestPoisonReportFromVE_keeps hu hne e.operator c
      · exact .refl h

/-! ## The end of a block -/

theorem endBlockMaintenance_keeps (h : s.lastRound = some r) :
    Keeps r me closed s (s.endBlockMaintenance X ctx) := by
  obtain ⟨⟨_, _, _, _, _, hframe⟩, -⟩ := @endBlockMaintenance_frame X ctx s
  rw [hframe]
  exact .of_records h rfl

/-- The points dealt so far depend on the dealings of the round only. -/
theorem Keeps.weight (h : Keeps r me closed s s') (hclosed : closed) :
    s'.dealingWeightUpperBound r = s.dealingWeightUpperBound r := by
  have hperm : (s'.dealings.entries.filter (fun d => d.epoch = r.epoch)).Perm
      (s.dealings.entries.filter (fun d => d.epoch = r.epoch)) := by
    refine (List.perm_ext_iff_of_nodup (s'.dealings.nodup_entries.filter _)
      (s.dealings.nodup_entries.filter _)).mpr fun d => ?_
    simp only [List.mem_filter, decide_eq_true_eq]
    exact and_congr_left fun hd => h.dealings hclosed d hd
  exact (hperm.map _).sum_eq

theorem endBlockDKG_keeps (h : s.lastRound = some r) (hopen : r.status = .isOpen)
    (hearly : ctx.height < r.complaintDeadline)
    (hdealt : r.dealDeadline < ctx.height → r.threshold ≤ s.dealingWeightUpperBound r) :
    Keeps r me (r.dealDeadline < ctx.height) s (s.endBlockDKG X ctx) := by
  have hmaint : Keeps r me (r.dealDeadline < ctx.height) s (s.endBlockMaintenance X ctx) :=
    endBlockMaintenance_keeps h
  have hdue : (s.endBlockMaintenance X ctx).finalizeDue X ctx = s.endBlockMaintenance X ctx := by
    have hlate : failsEarly (s.endBlockMaintenance X ctx) ctx.height r = false := by
      refine decide_eq_false ?_
      rintro ⟨hclosed, -, hlow⟩
      rw [hmaint.weight hclosed] at hlow
      exact absurd (hdealt hclosed) (Nat.not_le.mpr hlow)
    simp [finalizeDue, finalizeIf, hmaint.round, hlate, Nat.not_le.mpr hearly]
  unfold endBlockDKG endBlockBody
  simp only
  split_ifs with hrun hstill
  · exact .refl h
  · rw [hdue]
    exact hmaint
  · rw [hdue, hmaint.round] at hstill
    simp [hopen] at hstill
  · rw [hdue, hmaint.round] at hstill
    simp [hopen] at hstill

/-! ## The complaints of one block -/

theorem memberIndexByOperator_ne (hnodup : (members.map RoundMember.index).Nodup)
    {operator other : Bytes} (hidx : memberIndexByOperator members operator ≠ 0)
    (hne : other ≠ operator) :
    memberIndexByOperator members other ≠ memberIndexByOperator members operator := by
  intro heq
  have hfind (op : Bytes) (hop : memberIndexByOperator members op ≠ 0) :
      ∃ m ∈ members, m.operatorAddr = op ∧ m.index = memberIndexByOperator members op := by
    unfold memberIndexByOperator at hop ⊢
    by_cases hempty : op = []
    · rw [if_pos hempty] at hop
      exact absurd rfl hop
    rw [if_neg hempty] at hop ⊢
    cases hm : members.find? (fun m => m.operatorAddr = op) with
    | none =>
      rw [hm] at hop
      exact absurd rfl hop
    | some m => exact ⟨m, List.mem_of_find?_eq_some hm, by simpa using List.find?_some hm, rfl⟩
  obtain ⟨m, hm, hop, hmi⟩ := hfind operator hidx
  obtain ⟨m', hm', hop', hmi'⟩ := hfind other (heq ▸ hidx)
  obtain rfl := List.inj_on_of_nodup_map hnodup hm hm' (hmi.trans (heq.symm.trans hmi'.symm))
  exact hne (hop'.symm.trans hop)

theorem disputedPoint_index {operator : Bytes} {encPub : Bytes}
    (h : disputedPoint r operator c = some (idx, encPub)) :
    idx = memberIndexByOperator r.members operator := by
  unfold disputedPoint at h
  simp only at h
  split_ifs at h
  split at h
  · cases h
  · split_ifs at h
    exact (Prod.mk.inj (Option.some.inj h)).1.symm

theorem ingestComplaintFromVE_other (h : s.lastRound = some r) {operator : Bytes}
    (hother : memberIndexByOperator r.members operator ≠ me) (c : VoteExtComplaint) :
    Keeps r me closed s (s.ingestComplaintFromVE X r operator c).state := by
  refine ingestComplaintFromVE_induct (P := fun o => Keeps r me closed s o.state) (.refl h)
    (fun _ _ _ => put_complaint_keeps h _) fun a _ hdisputed => ?_
  have hidx : a.1 ≠ me := disputedPoint_index hdisputed ▸ hother
  exact setComplaintRejected_keeps h (.inr hidx) _ _

theorem Keeps.justified (h : Keeps r me closed s s') (hclosed : closed) {operator : Bytes}
    (hc : Justified X s r operator c) : Justified X s' r operator c := by
  obtain ⟨hepoch, encPub, dealing, hdisputed, hdealing, hjudge⟩ := hc
  refine ⟨hepoch, encPub, dealing, hdisputed, ?_, hjudge⟩
  have hkey : dealing.key = key2 r.epoch c.against := key_of_get? hdealing
  have hmem := (h.dealings hclosed dealing (key2_inj.mp hkey).1).mpr (mem_of_get? hdealing)
  rw [← hkey]
  exact (mem_entries_iff _ _).mp hmem

/-- No point of the accuser is burned in the epoch of the round. -/
def Unburnt (r : DkgRound) (me : Nat) (s : State) : Prop :=
  ∀ against p, s.rejectedComplaints.has (key4 r.epoch against me p) = false

theorem Keeps.unburnt (h : Keeps r me closed s s') (hs : Unburnt r me s) : Unburnt r me s' :=
  fun against p => (h.rejected against p).trans (hs against p)

/-- The complaints of a list that are not stored yet. -/
def unstored (r : DkgRound) (me : Nat) (L : List VoteExtComplaint) (s : State) : Nat :=
  L.countP fun c => !s.complaints.has (key3 r.epoch c.against me)

theorem Keeps.unstored_le (h : Keeps r me closed s s') (L : List VoteExtComplaint) :
    unstored r me L s' ≤ unstored r me L s := by
  refine List.countP_mono_left fun c _ hc => ?_
  rw [Bool.not_eq_true'] at hc ⊢
  exact Bool.eq_false_iff.mpr fun hs => by simp [h.complaints _ _ hs] at hc

variable {operator : Bytes}

/-- A justified complaint is stored at the price of at most one verification, and at none when it
was stored before. -/
theorem Justified.outcome (h : s.lastRound = some r)
    (hme : memberIndexByOperator r.members operator = me) (hc : Justified X s r operator c)
    (hfresh : Unburnt r me s) :
    Keeps r me closed s (s.ingestComplaintFromVE X r operator c).state
      ∧ (s.ingestComplaintFromVE X r operator c).state.complaints.has (key3 r.epoch c.against me)
        = true
      ∧ (s.ingestComplaintFromVE X r operator c).verifies
        ≤ (if s.complaints.has (key3 r.epoch c.against me) then 0 else 1) := by
  subst hme
  have hburn := hfresh c.against c.evalPoint
  obtain ⟨hstored, -⟩ := hc.ingest hburn
  obtain ⟨hepoch, encPub, dealing, hdisputed, hdealing, hjudge⟩ := hc
  have hprice : (judgeComplaint X encPub dealing c).2 ≤ 1 := by
    unfold judgeComplaint
    split <;> simp
  have houtcome : s.ingestComplaintFromVE X r operator c
      = if s.complaints.has (key3 r.epoch c.against (memberIndexByOperator r.members operator)) then
          ⟨s, false, 0⟩
        else ⟨s.setComplaint r.epoch c.against (memberIndexByOperator r.members operator), true,
          (judgeComplaint X encPub dealing c).2⟩ := by
    unfold ingestComplaintFromVE
    simp only [hepoch, hdisputed, hburn, hdealing, hjudge, ne_eq, not_true_eq_false, if_false,
      Bool.false_eq_true, if_true]
  refine ⟨?_, hstored, ?_⟩
  · rw [houtcome]
    split_ifs
    · exact .refl h
    · exact put_complaint_keeps h _
  · rw [houtcome]
    split_ifs
    · exact Nat.le_refl 0
    · exact hprice

theorem ingestComplaints_cons (ingest : State → VoteExtComplaint → State.ComplaintOutcome)
    (verifies : Nat) (s : State) (c : VoteExtComplaint) (cs : List VoteExtComplaint) :
    (ingestComplaints ingest verifies s (c :: cs)).1
      = if maxComplaintVerifiesPerAccuser ≤ verifies then s
        else (ingestComplaints ingest (verifies + (ingest s c).verifies) (ingest s c).state
          cs).1 := by
  rw [ingestComplaints]
  split_ifs <;> rfl

/-- **One block.** A list of justified complaints loses all that is not stored yet, or as many as the
quota has left. -/
theorem ingestComplaints_progress (hme : memberIndexByOperator r.members operator = me)
    (L : List VoteExtComplaint) (verifies : Nat) {s : State} (h : s.lastRound = some r)
    (hL : ∀ c ∈ L, Justified X s r operator c) (hfresh : Unburnt r me s) :
    Keeps r me True s (ingestComplaints (fun s c => s.ingestComplaintFromVE X r operator c)
        verifies s L).1
      ∧ unstored r me L (ingestComplaints (fun s c => s.ingestComplaintFromVE X r operator c)
          verifies s L).1
        ≤ unstored r me L s - (maxComplaintVerifiesPerAccuser - verifies) := by
  induction L generalizing verifies s with
  | nil => exact ⟨.refl h, Nat.zero_le _⟩
  | cons c cs ih =>
    rw [ingestComplaints_cons]
    split_ifs with hfull
    · exact ⟨.refl h, by omega⟩
    obtain ⟨hkeeps, hstored, hprice⟩ : Keeps r me True s _ ∧ _ ∧ _ :=
      (hL c List.mem_cons_self).outcome h hme hfresh
    obtain ⟨hrest, hless⟩ := ih (verifies + (s.ingestComplaintFromVE X r operator c).verifies)
      hkeeps.round (fun d hd => hkeeps.justified trivial (hL d (.tail _ hd)))
      (hkeeps.unburnt hfresh)
    refine ⟨hkeeps.trans hrest, ?_⟩
    -- `c` is stored from now on; it took one verification if it was not before
    have hhead := hrest.complaints c.against me hstored
    have hfewer := hkeeps.unstored_le cs
    simp only [unstored, List.countP_cons, hhead, Bool.not_true, Bool.false_eq_true, if_false,
      Nat.add_zero] at hless hfewer ⊢
    cases hbefore : s.complaints.has (key3 r.epoch c.against me) with
    | true =>
      simp only [hbefore, if_true, Nat.le_zero] at hprice
      simp only [Bool.not_true, Bool.false_eq_true, if_false]
      omega
    | false =>
      simp only [hbefore, Bool.false_eq_true, if_false] at hprice
      simp only [Bool.not_false, if_true]
      omega

theorem ingestEntries_append (ingest : State → VEEntry → State × Nat) (s : State)
    (es es' : List VEEntry) :
    (ingestEntries ingest s (es ++ es')).1
      = (ingestEntries ingest (ingestEntries ingest s es).1 es').1 := by
  induction es generalizing s with
  | nil => rfl
  | cons e es ih => exact ih _

/-- How the complaints of one entry are ingested. -/
def ingestEntry (X : External) (r : DkgRound) (s : State) (e : VEEntry) : State × Nat :=
  ingestComplaints (fun s c => s.ingestComplaintFromVE X r e.operator c) 0 s
    (e.ve.complaints.take r.members.length)

/-- An accuser in a round whose members are numbered apart. -/
structure Accuser (r : DkgRound) (operator : Bytes) (me : Nat) : Prop where
  numbered : (r.members.map RoundMember.index).Nodup
  index : memberIndexByOperator r.members operator = me
  member : me ≠ 0

/-- Every complaint the operator has in the extensions of a block is justified. -/
def SendsJustified (X : External) (s : State) (r : DkgRound) (operator : Bytes)
    (canon : List VEEntry) : Prop :=
  ∀ e ∈ canon, e.operator = operator → ∀ c ∈ e.ve.complaints, Justified X s r operator c

section

variable (h : s.lastRound = some r) (hacc : Accuser r operator me) (hfresh : Unburnt r me s)

include h hacc hfresh

theorem ingestEntry_keeps
    (hown : e.operator = operator → ∀ c ∈ e.ve.complaints, Justified X s r operator c) :
    Keeps r me True s (ingestEntry X r s e).1 := by
  by_cases hmine : e.operator = operator
  · have hL : ∀ c ∈ e.ve.complaints.take r.members.length, Justified X s r operator c :=
      fun c hc => hown hmine c (List.mem_of_mem_take hc)
    rw [ingestEntry, hmine]
    exact (ingestComplaints_progress hacc.index _ 0 h hL hfresh).1
  · have hother : memberIndexByOperator r.members e.operator ≠ me := by
      have hidx : memberIndexByOperator r.members operator ≠ 0 := hacc.index ▸ hacc.member
      exact hacc.index ▸ memberIndexByOperator_ne hacc.numbered hidx hmine
    exact ingestComplaints_keeps (fun t c ht => ingestComplaintFromVE_other ht hother c) _ 0 h

theorem ingestEntries_keeps_of_justified (hown : SendsJustified X s r operator canon) :
    Keeps r me True s (ingestEntries (ingestEntry X r) s canon).1 :=
  ingestEntries_keeps (fun _ e he ht => ingestEntry_keeps ht.round hacc (ht.unburnt hfresh)
    fun hmine c hc => ht.justified trivial (hown e he hmine c hc)) (.refl h)

/-- **The quota of a block.** An accuser that sends its whole list has eight more of it stored, or
all. -/
theorem ingestEntries_progress (hown : SendsJustified X s r operator canon) (he : e ∈ canon)
    (hmine : e.operator = operator) (hfits : e.ve.complaints.length ≤ r.members.length) :
    unstored r me e.ve.complaints (ingestEntries (ingestEntry X r) s canon).1
      ≤ unstored r me e.ve.complaints s - maxComplaintVerifiesPerAccuser := by
  obtain ⟨before, after, rfl⟩ := List.append_of_mem he
  have hbefore : Keeps r me True s (ingestEntries (ingestEntry X r) s before).1 :=
    ingestEntries_keeps_of_justified h hacc hfresh fun e' he' => hown e' (List.mem_append_left _ he')
  rw [ingestEntries_append]
  generalize (ingestEntries (ingestEntry X r) s before).1 = t at hbefore ⊢
  have hfresh' := hbefore.unburnt hfresh
  have hown' : SendsJustified X t r operator (e :: after) := fun e' he' hmine' c hc =>
    hbefore.justified trivial (hown e' (List.mem_append_right _ he') hmine' c hc)
  -- the accuser's own entry, and then the rest
  have hstep := ingestEntry_keeps hbefore.round hacc hfresh' (hown' e List.mem_cons_self)
  have hless : unstored r me e.ve.complaints (ingestEntry X r t e).1
      ≤ unstored r me e.ve.complaints t - maxComplaintVerifiesPerAccuser := by
    have hL := hown' e List.mem_cons_self hmine
    rw [ingestEntry, hmine, List.take_of_length_le hfits]
    exact (ingestComplaints_progress hacc.index _ 0 hbefore.round hL hfresh').2
  have hrest : Keeps r me True (ingestEntry X r t e).1
      (ingestEntries (ingestEntry X r) (ingestEntry X r t e).1 after).1 :=
    ingestEntries_keeps_of_justified hstep.round hacc (hstep.unburnt hfresh')
      fun e' he' hmine' c hc => hstep.justified trivial (hown' e' (.tail _ he') hmine' c hc)
  have hfirst := hbefore.unstored_le e.ve.complaints
  have hlast := hrest.unstored_le e.ve.complaints
  show unstored r me e.ve.complaints
    (ingestEntries (ingestEntry X r) (ingestEntry X r t e).1 after).1 ≤ _
  omega

end

/-! ## The ingestion of a block -/

/-- What the accuser has among the extensions of a block, as far as the block takes complaints. -/
def HonestIn (X : External) (ctx : Ctx) (s : State) (r : DkgRound) (operator : Bytes)
    (entries : List VEEntry) : Prop :=
  r.dealDeadline < ctx.height → SendsJustified X s r operator (canonicalEntries entries)

theorem complaintPhase_keeps (h : s.lastRound = some r) (hacc : Accuser r operator me)
    (hfresh : Unburnt r me s)
    (hown : r.dealDeadline < ctx.height → SendsJustified X s r operator canon) :
    Keeps r me (r.dealDeadline < ctx.height) s (s.complaintPhase X ctx canon) := by
  unfold complaintPhase
  rw [h]
  simp only
  split_ifs with hdue
  · exact (ingestEntries_keeps_of_justified h hacc hfresh (hown hdue.2.1)).mono fun _ => trivial
  · exact .refl h

theorem SendsJustified.of_keeps (h : Keeps r me closed s s') (hclosed : closed)
    (hown : SendsJustified X s r operator canon) : SendsJustified X s' r operator canon :=
  fun e he hmine c hc => h.justified hclosed (hown e he hmine c hc)

theorem afterComplaints_keeps (h : s.lastRound = some r) (hopen : r.status = .isOpen) (p : Params)
    (canon : List VEEntry) :
    Keeps r me closed s ((s.poisonPhase X canon).1.ingestDecryptSharesBounded X ctx p canon) := by
  have hpoison : Keeps r me closed s (s.poisonPhase X canon).1 := poisonPhase_keeps h hopen canon
  obtain ⟨es, rs, hframe⟩ :=
    @ingestDecryptSharesBounded_frame X ctx (s.poisonPhase X canon).1 p canon
  rw [hframe]
  exact hpoison.trans (.of_records hpoison.round rfl)

theorem beforeComplaints_keeps (h : s.lastRound = some r) (canon : List VEEntry) :
    Keeps r me (r.dealDeadline < ctx.height) s
      ((s.announcePhase X ctx canon).dealPhase X ctx canon) :=
  have hannounce := announcePhase_keeps h canon
  hannounce.trans (dealPhase_keeps hannounce.round canon)

section

variable (h : s.lastRound = some r) (hopen : r.status = .isOpen) (hacc : Accuser r operator me)
  (hfresh : Unburnt r me s)

include h hopen hacc hfresh

theorem consumeVoteExtensions_keeps (hown : HonestIn X ctx s r operator entries) :
    Keeps r me (r.dealDeadline < ctx.height) s (s.consumeVoteExtensions X ctx entries) := by
  unfold consumeVoteExtensions
  simp only
  split_ifs
  · exact .refl h
  · have hbefore := @beforeComplaints_keeps X ctx r me s h (canonicalEntries entries)
    have hcomplaints := hbefore.trans (complaintPhase_keeps hbefore.round hacc
      (hbefore.unburnt hfresh) fun hclosed => (hown hclosed).of_keeps hbefore hclosed)
    exact hcomplaints.trans (afterComplaints_keeps hcomplaints.round hopen _ _)

/-- A block of the window that consumes the accuser's list has eight more of it stored, or all. -/
theorem consumeVoteExtensions_progress
    (hon : s.params.dkgEnabled = true ∧ s.params.dkgTransparent = true)
    (hclosed : r.dealDeadline < ctx.height) (hdue : ctx.height ≤ r.complaintDeadline)
    (hown : SendsJustified X s r operator (canonicalEntries entries))
    (he : e ∈ canonicalEntries entries) (hmine : e.operator = operator)
    (hfits : e.ve.complaints.length ≤ r.members.length) :
    unstored r me e.ve.complaints (s.consumeVoteExtensions X ctx entries)
      ≤ unstored r me e.ve.complaints s - maxComplaintVerifiesPerAccuser := by
  have hbefore := @beforeComplaints_keeps X ctx r me s h (canonicalEntries entries)
  unfold consumeVoteExtensions consumeDkg
  simp only [hon, Bool.true_eq_false, or_self, if_false]
  generalize (s.announcePhase X ctx (canonicalEntries entries)).dealPhase X ctx
    (canonicalEntries entries) = t at hbefore ⊢
  have hownt := hown.of_keeps hbefore hclosed
  have hphase : t.complaintPhase X ctx (canonicalEntries entries)
      = (ingestEntries (ingestEntry X r) t (canonicalEntries entries)).1 := by
    unfold complaintPhase
    rw [hbefore.round]
    exact if_pos ⟨hopen, hclosed, hdue⟩
  have hkeeps := ingestEntries_keeps_of_justified hbefore.round hacc (hbefore.unburnt hfresh) hownt
  have hless := ingestEntries_progress hbefore.round hacc (hbefore.unburnt hfresh) hownt he hmine hfits
  rw [hphase]
  have hafter := @afterComplaints_keeps X ctx r me True _ hkeeps.round hopen s.params
    (canonicalEntries entries)
  have hfirst := hbefore.unstored_le e.ve.complaints
  have hlast := hafter.unstored_le e.ve.complaints
  omega

end

/-! ## Whole blocks -/

/-- A block: the vote extensions it consumes first, then the begin-block handler and the messages,
and last the end-block handler. -/
structure Block where
  ctx : Ctx
  entries : List VEEntry
  actions : List Action
  inside : ∀ a ∈ actions, a.insideBlock

namespace Block

def preBlock (X : External) (b : Block) (s : State) : State :=
  s.consumeVoteExtensions X b.ctx b.entries

/-- The state that the end-block handler gets. -/
def deliver (X : External) (b : Block) (s : State) : State :=
  b.actions.foldl (fun s a => s.step X b.ctx a) (b.preBlock X s)

def run (X : External) (b : Block) (s : State) : State := (b.deliver X s).endBlockDKG X b.ctx

end Block

def runBlocks (X : External) (s : State) (bs : List Block) : State :=
  bs.foldl (fun s b => b.run X s) s

theorem Block.actions_keep (b : Block) (h : s.lastRound = some r) :
    Keeps r me (r.dealDeadline < b.ctx.height) s (b.actions.foldl (fun s a => s.step X b.ctx a) s) :=
  .foldl h fun _ a ha ht => step_keeps ht (b.inside a ha)

theorem Block.preBlock_keeps (h : s.lastRound = some r) (hopen : r.status = .isOpen)
    (hacc : Accuser r operator me) (hfresh : Unburnt r me s)
    (hown : HonestIn X b.ctx s r operator b.entries) :
    Keeps r me (r.dealDeadline < b.ctx.height) s (b.preBlock X s) :=
  consumeVoteExtensions_keeps h hopen hacc hfresh hown

theorem Block.rest_keeps (h : (b.preBlock X s).lastRound = some r)
    (hopen : r.status = .isOpen) (hearly : b.ctx.height < r.complaintDeadline)
    (hdealt : r.dealDeadline < b.ctx.height →
      r.threshold ≤ (b.preBlock X s).dealingWeightUpperBound r) :
    Keeps r me (r.dealDeadline < b.ctx.height) (b.preBlock X s) (b.run X s) := by
  have hactions : Keeps r me (r.dealDeadline < b.ctx.height) (b.preBlock X s) (b.deliver X s) :=
    b.actions_keep h
  refine hactions.trans (endBlockDKG_keeps hactions.round hopen hearly fun hclosed => ?_)
  rw [hactions.weight hclosed]
  exact hdealt hclosed

theorem runBlocks_dealing (h : s.lastRound = some r) (hopen : r.status = .isOpen)
    (hacc : Accuser r operator me) (hfresh : Unburnt r me s)
    (hdealing : ∀ b ∈ bs, b.ctx.height ≤ r.dealDeadline)
    (hwindow : r.dealDeadline < r.complaintDeadline) :
    (runBlocks X s bs).lastRound = some r ∧ Unburnt r me (runBlocks X s bs) := by
  refine Reach.foldl_keeps (I := fun t : State => t.lastRound = some r ∧ Unburnt r me t)
    (fun t b hb ht => ?_) ⟨h, hfresh⟩
  have hle := hdealing b hb
  -- neither complaints nor the early failure are due
  have hpre : Keeps r me (r.dealDeadline < b.ctx.height) t (b.preBlock X t) :=
    Block.preBlock_keeps ht.1 hopen hacc ht.2 fun hclosed => absurd hclosed (by omega)
  have hrun : Keeps r me (r.dealDeadline < b.ctx.height) t (b.run X t) :=
    hpre.trans (Block.rest_keeps hpre.round hopen (by omega) fun hclosed => absurd hclosed (by omega))
  exact ⟨hrun.round, hrun.unburnt ht.2⟩

/-- The block consumes the list of the accuser. -/
structure Consumes (operator : Bytes) (L : List VoteExtComplaint) (s : State) (b : Block) : Prop where
  enabled : s.params.dkgEnabled = true ∧ s.params.dkgTransparent = true
  sent : ∃ e ∈ canonicalEntries b.entries, e.operator = operator
  whole : ∀ e ∈ canonicalEntries b.entries, e.operator = operator → e.ve.complaints = L

/-- Every block of a run consumes the list of the accuser. -/
def ConsumesAll (X : External) (operator : Bytes) (L : List VoteExtComplaint) :
    State → List Block → Prop
  | _, [] => True
  | s, b :: bs => Consumes operator L s b ∧ ConsumesAll X operator L (b.run X s) bs

/-- What an accuser's list is in a state: justified, and no longer than the committee. -/
structure Standing (X : External) (r : DkgRound) (operator : Bytes) (me : Nat)
    (L : List VoteExtComplaint) (s : State) : Prop where
  round : s.lastRound = some r
  unburnt : Unburnt r me s
  justified : ∀ c ∈ L, Justified X s r operator c
  dealt : r.threshold ≤ s.dealingWeightUpperBound r

theorem Standing.keeps (h : Standing X r operator me L s) (hkeeps : Keeps r me True s s') :
    Standing X r operator me L s' where
  round := hkeeps.round
  unburnt := hkeeps.unburnt h.unburnt
  justified c hc := hkeeps.justified trivial (h.justified c hc)
  dealt := by
    rw [hkeeps.weight trivial]
    exact h.dealt

theorem Standing.honest (h : Standing X r operator me L s) (hb : Consumes operator L s b) :
    SendsJustified X s r operator (canonicalEntries b.entries) :=
  fun e he hmine c hc => h.justified c (hb.whole e he hmine ▸ hc)

/-- **One block of the window.** Its ingestion stores eight more complaints, or all. -/
theorem Standing.preBlock (h : Standing X r operator me L s) (hopen : r.status = .isOpen)
    (hacc : Accuser r operator me) (hfits : L.length ≤ r.members.length)
    (hb : Consumes operator L s b) (hclosed : r.dealDeadline < b.ctx.height)
    (hdue : b.ctx.height ≤ r.complaintDeadline) :
    Keeps r me True s (b.preBlock X s)
      ∧ unstored r me L (b.preBlock X s) ≤ unstored r me L s - maxComplaintVerifiesPerAccuser := by
  obtain ⟨e, he, hmine⟩ := hb.sent
  have hlist := hb.whole e he hmine
  have hown := h.honest hb
  have hless := consumeVoteExtensions_progress h.round hopen hacc h.unburnt hb.enabled hclosed hdue
    hown he hmine (by rw [hlist]; exact hfits)
  rw [hlist] at hless
  exact ⟨(Block.preBlock_keeps h.round hopen hacc h.unburnt fun _ => hown).mono fun _ => hclosed,
    hless⟩

/-- **The window.** Every block of it takes eight complaints off the list. -/
theorem Standing.runBlocks (hopen : r.status = .isOpen) (hacc : Accuser r operator me)
    (hfits : L.length ≤ r.members.length) (bs : List Block) {s : State}
    (h : Standing X r operator me L s) (hbs : ConsumesAll X operator L s bs)
    (hheights : ∀ b ∈ bs, r.dealDeadline < b.ctx.height ∧ b.ctx.height < r.complaintDeadline) :
    Standing X r operator me L (runBlocks X s bs)
      ∧ unstored r me L (EncMempool.runBlocks X s bs)
        ≤ unstored r me L s - maxComplaintVerifiesPerAccuser * bs.length := by
  induction bs generalizing s with
  | nil => exact ⟨h, Nat.le_refl _⟩
  | cons b bs ih =>
    obtain ⟨hb, hrest⟩ := hbs
    obtain ⟨hclosed, hearly⟩ := hheights b List.mem_cons_self
    obtain ⟨hpre, hless⟩ := h.preBlock hopen hacc hfits hb hclosed (Nat.le_of_lt hearly)
    have hfinish : Keeps r me True (b.preBlock X s) (b.run X s) :=
      (Block.rest_keeps hpre.round hopen hearly fun _ => (h.keeps hpre).dealt).mono fun _ => hclosed
    obtain ⟨hstanding, hmore⟩ := ih (h.keeps (hpre.trans hfinish)) hrest
      fun b' hb' => hheights b' (.tail _ hb')
    refine ⟨hstanding, ?_⟩
    have hkept := hfinish.unstored_le L
    show unstored r me L (EncMempool.runBlocks X (b.run X s) bs) ≤ _
    rw [List.length_cons, Nat.mul_succ]
    omega

/-! ## The capacity -/

theorem disputedPoint_spec {accuser : Nat × Bytes}
    (h : disputedPoint r operator c = some accuser) :
    memberIndexByOperator r.members operator ∈ r.members.map RoundMember.index
      ∧ c.against ∈ r.members.map RoundMember.index
      ∧ c.against ≠ memberIndexByOperator r.members operator := by
  have hmem {idx : Nat} {m : RoundMember} (hm : memberByIndex r idx = some m) :
      idx ∈ r.members.map RoundMember.index :=
    List.mem_map.mpr ⟨m, List.mem_of_find?_eq_some hm, by simpa using List.find?_some hm⟩
  unfold disputedPoint at h
  simp only at h
  split_ifs at h with hself hnone
  split at h
  · cases h
  · rename_i m hm
    obtain ⟨m', hm'⟩ := Option.ne_none_iff_exists'.mp
      (fun heq => hnone (Option.isNone_iff_eq_none.mpr heq))
    exact ⟨hmem hm, hmem hm', fun heq => hself (.inr (.inr heq))⟩

theorem length_lt_members (hL : ∀ c ∈ L, Justified X s r operator c)
    (hdistinct : (L.map VoteExtComplaint.against).Nodup) : L.length ≤ r.members.length - 1 := by
  cases L with
  | nil => exact Nat.zero_le _
  | cons c₀ cs =>
    obtain ⟨-, _, _, hdisputed, -⟩ := hL c₀ List.mem_cons_self
    have hmem := (disputedPoint_spec hdisputed).1
    have hsub : (c₀ :: cs).map VoteExtComplaint.against
        ⊆ (r.members.map RoundMember.index).erase (memberIndexByOperator r.members operator) := by
      intro i hi
      obtain ⟨c, hc, rfl⟩ := List.mem_map.mp hi
      obtain ⟨-, _, _, hdisputed, -⟩ := hL c hc
      obtain ⟨-, hagainst, hother⟩ := disputedPoint_spec hdisputed
      exact (List.mem_erase_of_ne hother).mpr hagainst
    have hlen := (hdistinct.subperm hsub).length_le
    rwa [List.length_map, List.length_erase_of_mem hmem, List.length_map] at hlen

theorem capacity_of_floor (n : Nat) :
    n - 1 ≤ maxComplaintVerifiesPerAccuser * (complaintWindowFloor n - 1) := by
  unfold complaintWindowFloor maxComplaintVerifiesPerAccuser minComplaintWindowBlocks
  split_ifs <;> omega

theorem finalizeDue_eq (h : s.lastRound = some r) (hopen : r.status = .isOpen)
    (hdue : r.complaintDeadline ≤ ctx.height) : s.finalizeDue X ctx = s.finalizeRound X r := by
  have hfirst : s.finalizeIf X (fun r => r.complaintDeadline ≤ ctx.height) = s.finalizeRound X r := by
    simp [finalizeIf, h, hopen, hdue]
  obtain ⟨-, hepoch, hpos⟩ := get?_of_lastRound h
  -- the round is closed by then, so it cannot fail early as well
  have hcur : (s.finalizeRound X r).currentEpoch = s.currentEpoch := by
    obtain ⟨_, _, _, _, _, _, _, _, _, hframe⟩ :=
      @finalizeIf_frame X s fun r => r.complaintDeadline ≤ ctx.height
    rw [← hfirst, hframe]
  have hclosed : ∃ r', (s.finalizeRound X r).lastRound = some r' ∧ r'.status ≠ .isOpen := by
    have houtcome := congrArg Prod.snd (finalizeOutcome_eq (X := X) s r)
    have hget : (s.finalizeRound X r).lastRound
        = (s.finalizeRound X r).rounds.get? r.epoch := by
      rw [lastRound, hcur, if_pos hpos, hepoch]
    rw [hget]
    cases hres : s.finalizeResult X r with
    | error err | ok res =>
      rw [hres] at houtcome
      exact ⟨_, houtcome, by simp⟩
  obtain ⟨r', hr', hstatus⟩ := hclosed
  unfold finalizeDue
  simp only [hfirst]
  unfold finalizeIf
  simp only [hr', hstatus, false_and, if_false]

theorem consumesAll_append {s : State} (h : ConsumesAll X operator L s (bs ++ [b])) :
    ConsumesAll X operator L s bs ∧ Consumes operator L (runBlocks X s bs) b := by
  induction bs generalizing s with
  | nil => exact ⟨trivial, h.1⟩
  | cons b' bs ih => exact ⟨⟨h.1, (ih h.2).1⟩, (ih h.2).2⟩

theorem openRound_latest {base : State} {h attempt : Nat} {hash : Bytes} {p : Params} {r : DkgRound}
    (hopened : base.openRound X epoch members hash h p attempt = some s₀)
    (hr : s₀.lastRound = some r) :
    r.epoch = epoch ∧ r.status = .isOpen
      ∧ r.complaintDeadline = addSat r.dealDeadline
        (max p.dkgComplaintWindow (complaintWindowFloor r.members.length))
      ∧ r.members.map RoundMember.index = members.map RoundMember.index
      ∧ s₀.rejectedComplaints = base.rejectedComplaints := by
  obtain ⟨hget, hepoch, -⟩ := get?_of_lastRound hr
  obtain ⟨r', hr', hopen, -, -, hdeadline, -, hs₀⟩ := openRound_spec hopened
  have hcur : r.epoch = epoch := by rw [hepoch, hs₀]
  have hput : s₀.rounds.get? epoch = some r' := by
    rw [hs₀, ← hr']
    exact get?_put_self base.rounds r'
  rw [hcur] at hget
  obtain rfl := Option.some.inj (hput.symm.trans hget)
  exact ⟨hcur, hopen, hdeadline, openRound_index hopened hget, by rw [hs₀]⟩

/-- The first block of the window, in which the accuser has nothing to send yet. -/
theorem Standing.first (h : Standing X r operator me L s)
    (hopen : r.status = .isOpen) (hacc : Accuser r operator me)
    (hsilent : ∀ e ∈ canonicalEntries b.entries, e.operator = operator → e.ve.complaints = [])
    (hclosed : r.dealDeadline < b.ctx.height) (hearly : b.ctx.height < r.complaintDeadline) :
    Standing X r operator me L (b.run X s) := by
  have hpre : Keeps r me True s (b.preBlock X s) := by
    refine (Block.preBlock_keeps h.round hopen hacc h.unburnt fun _ e he hmine c hc => ?_).mono
      fun _ => hclosed
    rw [hsilent e he hmine] at hc
    cases hc
  have hrest : Keeps r me True (b.preBlock X s) (b.run X s) :=
    (Block.rest_keeps hpre.round hopen hearly fun _ => (h.keeps hpre).dealt).mono fun _ => hclosed
  exact h.keeps (hpre.trans hrest)

/-- **The capacity of the complaint window.** A round is opened and blocks follow at every height. If
the points dealt by the deal deadline reach the threshold, and an accuser whose complaints of the
epoch were never rejected has its list of justified complaints, one for a dealer, consumed in every
block from the second after that deadline on, then at the complaint deadline every complaint is
stored, and the end-block handler finalizes the round without the dealers complained about. -/
theorem complaint_capacity {base s₀ sD sW : State} {epoch h attempt : Nat}
    {members : List RoundMember} {hash : Bytes} {p : Params} {r : DkgRound} {operator : Bytes}
    {me : Nat} {dealing window : List Block} {first last : Block} {L : List VoteExtComplaint}
    (hopened : base.openRound X epoch members hash h p attempt = some s₀)
    (hr : s₀.lastRound = some r) (hnumbered : (members.map RoundMember.index).Nodup)
    (hme : memberIndexByOperator r.members operator = me) (hmember : me ≠ 0)
    (hfresh : ∀ against p, base.rejectedComplaints.has (key4 epoch against me p) = false)
    (hdealing : dealing.map (fun b => b.ctx.height) = List.range' (h + 1) (r.dealDeadline - h))
    (hwindow : (first :: window).map (fun b => b.ctx.height)
      = List.range' (r.dealDeadline + 1) (r.complaintDeadline - r.dealDeadline - 1))
    (hlast : last.ctx.height = r.complaintDeadline)
    (hsD : sD = runBlocks X s₀ dealing) (hsW : sW = runBlocks X (first.run X sD) window)
    (hdealt : r.threshold ≤ sD.dealingWeightUpperBound r)
    (hL : ∀ c ∈ L, Justified X sD r operator c)
    (hdistinct : (L.map VoteExtComplaint.against).Nodup)
    (hsilent : ∀ e ∈ canonicalEntries first.entries, e.operator = operator →
      e.ve.complaints = [])
    (hsends : ConsumesAll X operator L (first.run X sD) (window ++ [last])) :
    (∀ c ∈ L, (last.preBlock X sW).complaints.has (key3 r.epoch c.against me) = true)
      ∧ ((last.deliver X sW).endBlockMaintenance X last.ctx).finalizeDue X last.ctx
        = ((last.deliver X sW).endBlockMaintenance X last.ctx).finalizeRound X r
      ∧ ∀ c ∈ L, ∀ ak,
        (((last.deliver X sW).endBlockMaintenance X last.ctx).finalizeRound X r).activeKeys.get?
            r.epoch = some ak →
          ((last.deliver X sW).endBlockMaintenance X last.ctx).activeKeys.get? r.epoch = some ak
            ∨ c.against ∉ ak.qual := by
  obtain ⟨hepoch, hopen, hdeadline, hindex, hrejected⟩ := openRound_latest hopened hr
  have hacc : Accuser r operator me := ⟨hindex ▸ hnumbered, hme, hmember⟩
  have hunburnt : Unburnt r me s₀ := by
    intro against q
    rw [hrejected, hepoch]
    exact hfresh against q
  -- the deadline is one that a block reached, so the sum did not saturate
  have hsum := addSat_le last.ctx.height_lt (hdeadline ▸ hlast.ge)
  rw [hlast] at hsum
  have hfloor : 2 ≤ complaintWindowFloor r.members.length := by
    unfold complaintWindowFloor minComplaintWindowBlocks
    split_ifs <;> omega
  have hsize := Nat.le_max_right p.dkgComplaintWindow (complaintWindowFloor r.members.length)
  have hlength := length_lt_members hL hdistinct
  have hcapacity := capacity_of_floor r.members.length
  -- up to the deal deadline nothing is burned
  have hbefore : ∀ b ∈ dealing, b.ctx.height ≤ r.dealDeadline := by
    intro b hb
    have hmem := List.mem_map_of_mem (f := fun b : Block => b.ctx.height) hb
    rw [hdealing, List.mem_range'_1] at hmem
    omega
  obtain ⟨hround, hunburntD⟩ :=
    runBlocks_dealing (X := X) hr hopen hacc hunburnt hbefore (by omega)
  rw [← hsD] at hround hunburntD
  have hstart : Standing X r operator me L sD := ⟨hround, hunburntD, hL, hdealt⟩
  -- the window after its first block
  have hheights : ∀ b ∈ first :: window,
      r.dealDeadline < b.ctx.height ∧ b.ctx.height < r.complaintDeadline := by
    intro b hb
    have hmem := List.mem_map_of_mem (f := fun b : Block => b.ctx.height) hb
    rw [hwindow, List.mem_range'_1] at hmem
    omega
  have hcount : window.length + 1 = r.complaintDeadline - r.dealDeadline - 1 := by
    have hlen := congrArg List.length hwindow
    simpa using hlen
  obtain ⟨hclosed, hearly⟩ := hheights first List.mem_cons_self
  have hfirst := hstart.first hopen hacc hsilent hclosed hearly
  obtain ⟨hconsumes, hconsumesLast⟩ := consumesAll_append hsends
  obtain ⟨hstanding, hless⟩ := Standing.runBlocks hopen hacc (by omega) window hfirst hconsumes
    fun b hb => hheights b (.tail _ hb)
  rw [← hsW] at hstanding hless hconsumesLast
  -- the ingestion at the deadline itself takes the last eight
  have hlate : r.dealDeadline < last.ctx.height := by omega
  obtain ⟨hpre, hdone⟩ := hstanding.preBlock hopen hacc (by omega) hconsumesLast hlate hlast.le
  have hbegin : unstored r me L (first.run X sD) ≤ L.length := List.countP_le_length
  have hnone : unstored r me L (last.preBlock X sW) = 0 := by
    have hmul : maxComplaintVerifiesPerAccuser * (complaintWindowFloor r.members.length - 1)
        ≤ maxComplaintVerifiesPerAccuser * (window.length + 1) :=
      Nat.mul_le_mul_left _ (by omega)
    rw [Nat.mul_succ] at hmul
    omega
  have hstored : ∀ c ∈ L, (last.preBlock X sW).complaints.has (key3 r.epoch c.against me) = true := by
    intro c hc
    simpa using List.countP_eq_zero.mp hnone c hc
  have hactions : Keeps r me True (last.preBlock X sW) (last.deliver X sW) :=
    (last.actions_keep hpre.round).mono fun _ => hlate
  have hmaint : Keeps r me True (last.preBlock X sW)
      ((last.deliver X sW).endBlockMaintenance X last.ctx) :=
    hactions.trans (endBlockMaintenance_keeps hactions.round)
  refine ⟨hstored, finalizeDue_eq hmaint.round hopen hlast.ge, fun c hc ak hak => ?_⟩
  exact finalizeRound_excludes (hmaint.complaints c.against me (hstored c hc)) hak

/-! ## A round of two -/

namespace Sample

def windowPrimitives : External := .ofTables {}

def windowParams : Params :=
  { defaultParams with
    dkgEnabled := true, dkgTransparent := true, dkgShareBudget := 4, dkgDealWindow := 2
    dkgComplaintWindow := 2 }

def windowMembers (points : Nat → List Nat) : List RoundMember :=
  [⟨1, bytesOf "a", [], [], 2, points 0, true⟩, ⟨2, bytesOf "b", [], [], 2, points 2, true⟩]

/-- The round of two that is opened at height 10. -/
def windowRound : DkgRound :=
  { epoch := 1, openHeight := 10, dealDeadline := 12, complaintDeadline := 14
    members := windowMembers fun i => [i + 1, i + 2]
    threshold := 4, membersHash := [], status := .isOpen, attempt := 1 }

/-- These dealers have dealt, and nobody got a share. -/
def windowBase (dealers : List Nat) : State :=
  { init with
    params := windowParams
    dealings := dealers.foldl (fun d i => d.put ⟨1, i, bytesOf "a", [], []⟩) .empty }

def windowOpened (dealers : List Nat) : State :=
  { windowBase dealers with
    rounds := RecStore.empty.put windowRound, currentEpoch := 1 }

/-- The second member's complaint about the first. -/
def windowComplaint : VoteExtComplaint := Node.noDeal 1 1 3

/-- A block that brings these complaints of the second member. -/
def windowBlock (height : Nat) (hheight : height < 2 ^ 63) (complaints : List VoteExtComplaint) :
    Block where
  ctx := { block height hheight with voteExtEnableHeight := some 1 }
  entries := [⟨bytesOf "b", { encPubKey := [], encPubKeyPoP := [], dealing := none, shares := []
                              complaints := complaints, poisonReports := [] }⟩]
  actions := []
  inside := by simp

theorem twelve_lt : 12 < 2 ^ 63 := by decide

def windowDealing : List Block := [windowBlock 11 (by decide) [], windowBlock 12 twelve_lt []]

/-- The state when dealing is over. -/
def windowDealt (dealers : List Nat) : State :=
  runBlocks windowPrimitives (windowOpened dealers) windowDealing

theorem windowBase_openRound (dealers : List Nat) :
    (windowBase dealers).openRound windowPrimitives 1 (windowMembers fun _ => []) [] 10 windowParams 1
      = some (windowOpened dealers) := by
  have hpoints : allocateEvalPoints windowPrimitives.sha256 (windowMembers fun _ => [])
      windowParams.effectiveShareBudget 1 = some windowRound.members := by decide +kernel
  have hthreshold : stakeThreshold windowRound.members windowParams.dkgStrictConcentration = 4 := by
    decide +kernel
  simp only [openRound, hpoints, Option.map_some, hthreshold]
  rfl

theorem windowComplaint_justified (dealers : List Nat)
    (hdealt : (windowDealt dealers).dealings.get? (key2 1 1) = some ⟨1, 1, bytesOf "a", [], []⟩) :
    Justified windowPrimitives (windowDealt dealers) windowRound (bytesOf "b") windowComplaint :=
  ⟨rfl, [], _, by decide +kernel, hdealt, judgeComplaint_missing rfl⟩

theorem windowComplaint_consumed {s : State}
    (hon : s.params.dkgEnabled = true ∧ s.params.dkgTransparent = true) :
    Consumes (bytesOf "b") [windowComplaint] s (windowBlock 14 (by decide) [windowComplaint]) := by
  have hcanon : canonicalEntries (windowBlock 14 (by decide) [windowComplaint]).entries
      = (windowBlock 14 (by decide) [windowComplaint]).entries := by decide +kernel
  refine ⟨hon, ?_, ?_⟩
  · rw [hcanon]
    exact ⟨_, List.mem_cons_self, rfl⟩
  · rw [hcanon]
    intro e he _
    obtain rfl := List.mem_singleton.mp he
    rfl

end Sample

open Sample

/-- The complaint about the first of two dealers is stored when both have dealt. -/
theorem complaint_capacity_pair :
    ((windowBlock 14 (by decide) [windowComplaint]).preBlock windowPrimitives
      ((windowBlock 13 (by decide) []).run windowPrimitives
        (windowDealt [1, 2]))).complaints.has (key3 1 1 2) = true := by
  have hstate : (windowDealt [1, 2]).dealings.get? (key2 1 1)
        = some ⟨1, 1, bytesOf "a", [], []⟩
      ∧ 4 ≤ (windowDealt [1, 2]).dealingWeightUpperBound windowRound
      ∧ memberIndexByOperator windowRound.members (bytesOf "b") = 2 := by decide +kernel
  have hon : ((windowBlock 13 (by decide) []).run windowPrimitives
      (windowDealt [1, 2])).params.dkgEnabled = true
      ∧ ((windowBlock 13 (by decide) []).run windowPrimitives
        (windowDealt [1, 2])).params.dkgTransparent = true := by decide +kernel
  have hsilent : ∀ e ∈ canonicalEntries (windowBlock 13 (by decide) []).entries,
      e.ve.complaints = [] := by decide +kernel
  have hwindow : [windowBlock 13 (by decide) []].map (fun b => b.ctx.height)
      = List.range' 13 1 := rfl
  have hdealing : windowDealing.map (fun b => b.ctx.height) = List.range' 11 2 := rfl
  obtain ⟨hstored, -⟩ := complaint_capacity (L := [windowComplaint])
    (windowBase_openRound [1, 2]) rfl (by decide) hstate.2.2 (by decide) (fun _ _ => rfl)
    hdealing hwindow rfl rfl rfl hstate.2.1
    (fun c hc => by
      obtain rfl := List.mem_singleton.mp hc
      exact windowComplaint_justified [1, 2] hstate.1)
    (List.nodup_singleton _) (fun e he _ => hsilent e he)
    ⟨windowComplaint_consumed hon, trivial⟩
  exact hstored _ List.mem_cons_self

/-- With the first dealer alone the dealt points stay below the threshold: the round fails at the
first end-block after the deal deadline, and the complaint that was built there is dropped. -/
theorem complaint_lost_pair :
    (windowBase [1]).openRound windowPrimitives 1 (windowMembers fun _ => [])
        [] 10 windowParams 1 = some (windowOpened [1])
      ∧ (windowOpened [1]).lastRound = some windowRound
      ∧ memberIndexByOperator windowRound.members (bytesOf "b") = 2
      ∧ Justified windowPrimitives (windowDealt [1]) windowRound (bytesOf "b")
        windowComplaint
      ∧ ConsumesAll windowPrimitives (bytesOf "b") [windowComplaint]
        ((windowBlock 13 (by decide) []).run windowPrimitives (windowDealt [1]))
        [windowBlock 14 (by decide) [windowComplaint]]
      ∧ ((windowBlock 14 (by decide) [windowComplaint]).preBlock windowPrimitives
        ((windowBlock 13 (by decide) []).run windowPrimitives
          (windowDealt [1]))).complaints.has (key3 1 1 2) = false := by
  have hindex : memberIndexByOperator windowRound.members (bytesOf "b") = 2 := by
    decide +kernel
  have hrun : (windowDealt [1]).dealings.get? (key2 1 1) = some ⟨1, 1, bytesOf "a", [], []⟩
      ∧ (((windowBlock 13 (by decide) []).run windowPrimitives
          (windowDealt [1])).params.dkgEnabled = true
        ∧ ((windowBlock 13 (by decide) []).run windowPrimitives
          (windowDealt [1])).params.dkgTransparent = true)
      ∧ ((windowBlock 14 (by decide) [windowComplaint]).preBlock
        windowPrimitives ((windowBlock 13 (by decide) []).run windowPrimitives
          (windowDealt [1]))).complaints.has (key3 1 1 2) = false := by decide +kernel
  obtain ⟨hdealt, hon, hlost⟩ := hrun
  exact ⟨windowBase_openRound [1], rfl, hindex, windowComplaint_justified [1] hdealt,
    ⟨windowComplaint_consumed hon, trivial⟩, hlost⟩

end EncMempool
