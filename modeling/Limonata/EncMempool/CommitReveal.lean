import Limonata.EncMempool.Accounts
import Limonata.EncMempool.InFlight

/-!
# x/encmempool — commit-reveal is exactly once

A commit is stored under its height, sender and sequence number, a reveal of it under the same key.
The begin-block executes the matured reveals first and then drops the commits whose window is over.
Both windows are read at that moment, so governance may have moved them since the reveal was
accepted; that no accepted reveal is dropped rests on the order of the two passes and on the reveal
window never being shorter than the reveal delay.
-/

namespace EncMempool

open Machine Check RecStore

variable {X : External} {ctx : Ctx}

/-! ## The commit counters -/

/-- The commit counters are the records of the numbers of stored commits. -/
structure State.CommitCounts (s : State) : Prop where
  global : s.globalCommitCount = countRecord (s.commits.count fun _ => true)
  sender : ∀ a, s.senderCommitCounts.lookup a = countRecord (s.commits.count fun c => c.sender = a)

variable {s s' : State}

namespace State

/-- A commit comes or leaves, and its counters move with the count of the commits. -/
theorem CommitCounts.moved {f : Option Nat → Option Nat} {c : Commit} (h : s.CommitCounts)
    (hmove : ∀ p : Commit → Bool, countRecord (s'.commits.count p)
      = if p c then f (countRecord (s.commits.count p)) else countRecord (s.commits.count p))
    (hglobal : s'.globalCommitCount = f s.globalCommitCount)
    (hsender : s'.senderCommitCounts = s.senderCommitCounts.update c.sender f) :
    s'.CommitCounts := by
  refine ⟨?_, fun a => ?_⟩
  · rw [hglobal, hmove, if_pos rfl, h.global]
  · rw [hsender, hmove]
    simp only [KVStore.lookup_update, decide_eq_true_eq, h.sender]
    split_ifs with heq hne hne
    · rw [heq]
    · exact absurd heq.symm hne
    · exact absurd hne.symm heq
    · rfl

theorem CommitCounts.setCommit (h : s.CommitCounts) (c : Commit)
    (hroom : s.commits.entries.length + 1 < 2 ^ 64) : (s.setCommit c).CommitCounts := by
  unfold State.setCommit
  simp only
  by_cases hhas : s.commits.has c.key = true
  · obtain ⟨old, hold⟩ := has_iff.mp hhas
    -- the key tells the sender
    have hkey : old.key = c.key := key_of_get? hold
    have hsender : old.sender = c.sender := by
      simp only [Commit.key, toLex_inj, Prod.mk.injEq] at hkey
      exact hkey.2.1
    rw [if_pos hhas]
    refine ⟨?_, fun a => ?_⟩
    · rw [count_put_replace hold _ rfl]
      exact h.global
    · rw [count_put_replace hold _ (by rw [hsender])]
      exact h.sender a
  · have hfresh : s.commits.get? c.key = none :=
      has_eq_false.mp (Bool.eq_false_iff.mpr hhas)
    rw [if_neg hhas]
    exact h.moved (countRecord_put hfresh hroom) rfl rfl

theorem CommitCounts.deleteCommit (h : s.CommitCounts) (height : Nat) (sender : Bytes)
    (seq : Nat) : (s.deleteCommit height sender seq).CommitCounts := by
  unfold State.deleteCommit
  simp only
  by_cases hhas : s.commits.has (toLex (height, toLex (sender, seq))) = true
  · obtain ⟨old, hold⟩ := has_iff.mp hhas
    have hkey : old.key = toLex (height, toLex (sender, seq)) := key_of_get? hold
    have hsender : old.sender = sender := by
      simp only [Commit.key, toLex_inj, Prod.mk.injEq] at hkey
      exact hkey.2.1
    rw [if_pos hhas]
    exact h.moved (countRecord_del hold) rfl (hsender ▸ rfl)
  · have hfresh : s.commits.get? (toLex (height, toLex (sender, seq))) = none :=
      has_eq_false.mp (Bool.eq_false_iff.mpr hhas)
    rw [if_neg hhas, del_of_get?_none hfresh]
    exact h

end State

/-! ## The invariant -/

/-- What the block handler and the messages keep between them, up to height `n`. -/
structure State.RevealInv (X : External) (n : Nat) (s : State) : Prop where
  params : s.params.validate X = .ok ()
  counts : s.CommitCounts
  /-- A pending reveal is of an earlier block, opens its commit, and the commit is stored. -/
  pending : ∀ pr ∈ s.pending.entries, pr.commitHeight < n
    ∧ ∃ c, s.commits.get? pr.key = some c ∧ X.sha256 (pr.revealTx ++ pr.salt) = c.commitHash
  /-- An executed reveal is of an earlier block and its commit is gone. -/
  executed : ∀ pr ∈ s.revealsExecuted, pr.commitHeight < n ∧ s.commits.get? pr.key = none
  once : (s.revealsExecuted.map PendingReveal.key).Nodup

variable {n : Nat} {pr : PendingReveal}

namespace State

theorem RevealInv.advance {n' : Nat} (h : s.RevealInv X n) (hle : n ≤ n') : s.RevealInv X n' :=
  ⟨h.params, h.counts, fun pr hpr => ⟨(h.pending pr hpr).1.trans_le hle, (h.pending pr hpr).2⟩,
    fun pr hpr => ⟨(h.executed pr hpr).1.trans_le hle, (h.executed pr hpr).2⟩, h.once⟩

theorem RevealInv.congr (h : s.RevealInv X n)
    (hparams : s'.params.validate X = .ok ()) (hcommits : s'.commits = s.commits)
    (hpending : s'.pending = s.pending) (hglobal : s'.globalCommitCount = s.globalCommitCount)
    (hsender : s'.senderCommitCounts = s.senderCommitCounts)
    (hexec : s'.revealsExecuted = s.revealsExecuted) : s'.RevealInv X n := by
  refine ⟨hparams, ⟨?_, ?_⟩, ?_, ?_, hexec ▸ h.once⟩
  · rw [hglobal, hcommits]
    exact h.counts.global
  · rw [hsender, hcommits]
    exact h.counts.sender
  · rw [hpending, hcommits]
    exact h.pending
  · rw [hexec, hcommits]
    exact h.executed

theorem addSat_le {a b : Nat} (hn : n < 2 ^ 63) (h : addSat a b ≤ n) : a + b ≤ n := by
  unfold addSat at h
  split_ifs at h
  · omega
  · exact h

/-- A new commit is of the current block, so it meets no pending and no executed reveal. -/
theorem RevealInv.commitTx {msg : MsgCommitTx} (h : s.RevealInv X ctx.height)
    (hok : s.commitTx ctx msg = .ok s') : s'.RevealInv X ctx.height := by
  simp only [State.commitTx, bind_unit_eq_ok, rejectIf_eq_ok] at hok
  obtain ⟨-, hcap, -, hok⟩ := hok
  cases hok
  let c : Commit :=
    { sender := msg.sender, commitHash := msg.commitHash, height := ctx.height, seq := s.seq }
  let t : State := { s with seq := wrap64 (s.seq + 1) }
  show (t.setCommit c).RevealInv X ctx.height
  have hroom : s.commits.entries.length + 1 < 2 ^ 64 := by
    rw [h.counts.global, countRecord_getD] at hcap
    simp only [RecStore.count, List.countP_true, maxInFlightCommits] at hcap
    omega
  have hbumped : t.CommitCounts := ⟨h.counts.global, h.counts.sender⟩
  have hcounts : (t.setCommit c).CommitCounts := hbumped.setCommit c hroom
  have hframe : (t.setCommit c).pending = s.pending ∧ (t.setCommit c).params = s.params
      ∧ (t.setCommit c).revealsExecuted = s.revealsExecuted
      ∧ (t.setCommit c).commits = s.commits.put c := by
    unfold State.setCommit
    simp only
    split_ifs
    · exact ⟨rfl, rfl, rfl, rfl⟩
    · exact ⟨rfl, rfl, rfl, rfl⟩
  obtain ⟨hpending, hparams, hexec, hcommits⟩ := hframe
  have hother (pr : PendingReveal) (hlt : pr.commitHeight < ctx.height) :
      (s.commits.put c).get? pr.key = s.commits.get? pr.key := by
    rw [get?_put, if_neg]
    intro heq
    simp only [PendingReveal.key, Commit.key, toLex_inj, Prod.mk.injEq] at heq
    exact absurd heq.1 hlt.ne
  refine ⟨hparams ▸ h.params, hcounts, fun pr hpr => ?_, fun pr hpr => ?_, hexec ▸ h.once⟩
  · obtain ⟨hlt, hmatch⟩ := h.pending pr (hpending ▸ hpr)
    rw [hcommits, hother pr hlt]
    exact ⟨hlt, hmatch⟩
  · obtain ⟨hlt, hgone⟩ := h.executed pr (hexec ▸ hpr)
    rw [hcommits, hother pr hlt]
    exact ⟨hlt, hgone⟩

/-- **What an accepted reveal has passed.** -/
theorem revealTx_spec {msg : MsgRevealTx} (hdelay : 0 < s.params.revealDelay)
    (hok : s.revealTx X ctx msg = .ok s') :
    ∃ (pr : PendingReveal) (c : Commit),
      pr.key = toLex (msg.commitHeight, toLex (msg.sender.1, msg.seq))
        ∧ pr.revealTx = msg.revealTx ∧ pr.salt = msg.salt
        ∧ s.commits.get? pr.key = some c ∧ X.sha256 (msg.revealTx ++ msg.salt) = c.commitHash
        ∧ pr.commitHeight + s.params.revealDelay ≤ ctx.height
        ∧ pr.commitHeight < ctx.height
        ∧ s' = { s with pending := s.pending.put pr } := by
  unfold State.revealTx at hok
  split at hok
  · cases hok
  · rename_i c hc
    simp only [bind_unit_eq_ok, rejectIf_eq_ok] at hok
    obtain ⟨-, hearly, -, -, hhash, hok⟩ := hok
    cases hok
    have hdue := addSat_le ctx.height_lt (Nat.not_lt.mp hearly)
    let pr : PendingReveal :=
      { sender := msg.sender, commitHeight := msg.commitHeight, seq := msg.seq
        revealTx := msg.revealTx, salt := msg.salt }
    have hlt : msg.commitHeight < ctx.height := by omega
    exact ⟨pr, c, rfl, rfl, rfl, hc, not_not.mp hhash, hdue, hlt, rfl⟩

theorem RevealInv.revealTx {msg : MsgRevealTx} (h : s.RevealInv X ctx.height)
    (hok : s.revealTx X ctx msg = .ok s') : s'.RevealInv X ctx.height := by
  obtain ⟨pr, c, -, htx, hsalt, hc, hhash, -, hlt, rfl⟩ :=
    revealTx_spec (Params.validate_windows h.params).1 hok
  refine ⟨h.params, ⟨h.counts.global, h.counts.sender⟩, forall_mem_put ?_ h.pending, h.executed, h.once⟩
  rw [htx, hsalt]
  exact ⟨hlt, c, hc, hhash⟩

/-! ## The block handler -/

theorem RevealInv.deleteCommit (h : s.RevealInv X n) {height : Nat} {sender : Bytes} {seq : Nat}
    (hfree : s.pending.get? (toLex (height, toLex (sender, seq))) = none) :
    (s.deleteCommit height sender seq).RevealInv X n := by
  have hframe : (s.deleteCommit height sender seq).pending = s.pending
      ∧ (s.deleteCommit height sender seq).params = s.params
      ∧ (s.deleteCommit height sender seq).revealsExecuted = s.revealsExecuted
      ∧ (s.deleteCommit height sender seq).commits
        = s.commits.del (toLex (height, toLex (sender, seq))) := by
    unfold State.deleteCommit
    simp only
    split_ifs
    · exact ⟨rfl, rfl, rfl, rfl⟩
    · exact ⟨rfl, rfl, rfl, rfl⟩
  obtain ⟨hpending, hparams, hexec, hcommits⟩ := hframe
  refine ⟨hparams ▸ h.params, h.counts.deleteCommit _ _ _, fun pr hpr => ?_, fun pr hpr => ?_,
    hexec ▸ h.once⟩
  · rw [hpending] at hpr
    obtain ⟨hlt, hmatch⟩ := h.pending pr hpr
    have hne : pr.key ≠ toLex (height, toLex (sender, seq)) := by
      intro heq
      rw [← heq, (mem_entries_iff _ _).mp hpr] at hfree
      cases hfree
    rw [hcommits, get?_del_of_ne hne]
    exact ⟨hlt, hmatch⟩
  · obtain ⟨hlt, hgone⟩ := h.executed pr (hexec ▸ hpr)
    rw [hcommits, get?_del]
    split_ifs
    · exact ⟨hlt, rfl⟩
    · exact ⟨hlt, hgone⟩

theorem executeReveal_frame (s : State) (pr : PendingReveal) :
    (s.executeReveal pr).params = s.params
      ∧ (s.executeReveal pr).pending = s.pending.del pr.key
      ∧ (s.executeReveal pr).revealsExecuted = s.revealsExecuted ++ [pr]
      ∧ (s.executeReveal pr).commits = s.commits.del pr.key := by
  unfold executeReveal State.deleteCommit
  simp only
  split_ifs
  · exact ⟨rfl, rfl, rfl, rfl⟩
  · exact ⟨rfl, rfl, rfl, rfl⟩

theorem mem_pending_del {x : PendingReveal} (hpr : pr ∈ s.pending.entries) :
    x ∈ (s.pending.del pr.key).entries ↔ x ∈ s.pending.entries ∧ x ≠ pr := by
  rw [mem_del_iff]
  exact and_congr_right fun hx => not_congr ⟨eq_of_key hx hpr, fun heq => heq ▸ rfl⟩

theorem RevealInv.executeReveal (h : s.RevealInv X n)
    (hpr : pr ∈ s.pending.entries) : (s.executeReveal pr).RevealInv X n := by
  obtain ⟨hparams, hpending, hexec, hcommits⟩ := executeReveal_frame s pr
  have hcounts : (s.executeReveal pr).CommitCounts :=
    @CommitCounts.deleteCommit { s with
      revealsExecuted := s.revealsExecuted ++ [pr], pending := s.pending.del pr.key }
      ⟨h.counts.global, h.counts.sender⟩ _ _ _
  obtain ⟨hpast, c, hc, -⟩ := h.pending pr hpr
  have hnew : pr.key ∉ s.revealsExecuted.map PendingReveal.key := by
    intro hmem
    obtain ⟨x, hx, hkey⟩ := List.mem_map.mp hmem
    have hgone := (h.executed x hx).2
    rw [hkey, hc] at hgone
    cases hgone
  refine ⟨hparams ▸ h.params, hcounts, fun x hx => ?_, fun x hx => ?_, ?_⟩
  · rw [hpending, mem_del_iff] at hx
    obtain ⟨hlt, hmatch⟩ := h.pending x hx.1
    rw [hcommits, get?_del_of_ne hx.2]
    exact ⟨hlt, hmatch⟩
  · rw [hexec, List.mem_append, List.mem_singleton] at hx
    rw [hcommits, get?_del]
    obtain hx | rfl := hx
    · obtain ⟨hlt, hgone⟩ := h.executed x hx
      exact ⟨hlt, by rw [hgone, ite_self]⟩
    · exact ⟨hpast, if_pos rfl⟩
  · rw [hexec, List.map_append, List.map_cons, List.map_nil]
    exact List.nodup_append'.mpr ⟨h.once, List.nodup_singleton _,
      fun x hx hx' => hnew (List.mem_singleton.mp hx' ▸ hx)⟩

theorem RevealInv.executeReveals (prs : List PendingReveal)
    (h : s.RevealInv X n) (hsub : ∀ pr ∈ prs, pr ∈ s.pending.entries) (hnodup : prs.Nodup) :
    (prs.foldl State.executeReveal s).RevealInv X n
      ∧ (prs.foldl State.executeReveal s).params = s.params
      ∧ (prs.foldl State.executeReveal s).revealsExecuted = s.revealsExecuted ++ prs
      ∧ ∀ x, x ∈ (prs.foldl State.executeReveal s).pending.entries
        ↔ x ∈ s.pending.entries ∧ x ∉ prs := by
  induction prs generalizing s with
  | nil => exact ⟨h, rfl, by simp, by simp⟩
  | cons pr prs ih =>
    obtain ⟨hnew, hnodup⟩ := List.nodup_cons.mp hnodup
    have hpr : pr ∈ s.pending.entries := hsub pr List.mem_cons_self
    obtain ⟨hparams, hpending, hexec, -⟩ := executeReveal_frame s pr
    have hleft (x : PendingReveal) : x ∈ (s.executeReveal pr).pending.entries
        ↔ x ∈ s.pending.entries ∧ x ≠ pr := by
      rw [hpending]
      exact mem_pending_del hpr
    have hrest : ∀ x ∈ prs, x ∈ (s.executeReveal pr).pending.entries := fun x hx =>
      (hleft x).mpr ⟨hsub x (.tail _ hx), fun heq => hnew (heq ▸ hx)⟩
    obtain ⟨hinv, hparams', hexec', hmem⟩ := ih (h.executeReveal hpr) hrest hnodup
    refine ⟨hinv, hparams'.trans hparams, ?_, fun x => ?_⟩
    · rw [List.foldl_cons, hexec', hexec, List.append_assoc, List.singleton_append]
    · rw [List.foldl_cons, hmem, hleft, List.mem_cons, not_or, and_assoc]

/-- The second pass: the commits it drops have no pending reveal, so no reveal is dropped. -/
theorem RevealInv.dropStaleCommits (cs : List Commit) (h : s.RevealInv X n)
    (hfree : ∀ c ∈ cs, s.pending.get? c.key = none) :
    (cs.foldl dropStaleCommit s).RevealInv X n
      ∧ (cs.foldl dropStaleCommit s).revealsExecuted = s.revealsExecuted
      ∧ (cs.foldl dropStaleCommit s).pending = s.pending := by
  induction cs generalizing s with
  | nil => exact ⟨h, rfl, rfl⟩
  | cons c cs ih =>
    have hkey : s.pending.get? c.key = none := hfree c List.mem_cons_self
    have hdelete := h.deleteCommit hkey
    have hframe : (s.deleteCommit c.height c.sender c.seq).pending = s.pending
        ∧ (s.deleteCommit c.height c.sender c.seq).revealsExecuted = s.revealsExecuted := by
      unfold State.deleteCommit
      simp only
      split_ifs
      · exact ⟨rfl, rfl⟩
      · exact ⟨rfl, rfl⟩
    have hdrop : s.dropStaleCommit c = s.deleteCommit c.height c.sender c.seq := by
      unfold dropStaleCommit
      simp only [hframe.1]
      rw [del_of_get?_none hkey, ← hframe.1]
    rw [List.foldl_cons, hdrop]
    obtain ⟨hinv, hexec, hpending⟩ := ih hdelete fun x hx =>
      hframe.1 ▸ hfree x (.tail _ hx)
    exact ⟨hinv, hexec.trans hframe.2, hpending.trans hframe.1⟩

theorem addSat_mono {a b b' : Nat} (h : b ≤ b') : addSat a b ≤ addSat a b' := by
  unfold addSat
  split_ifs
  · exact le_rfl
  · omega
  · omega
  · omega

/-- **The commit-reveal half of a block.** The reveals that leave the store are those added to the
log: a commit old enough to be dropped had a matured reveal, if any, and that was executed. -/
theorem RevealInv.revealPhase (h : s.RevealInv X n) (cur : Nat) :
    (State.revealPhase cur s s.params).RevealInv X n
      ∧ ∃ due, (State.revealPhase cur s s.params).revealsExecuted = s.revealsExecuted ++ due
        ∧ ∀ x, x ∈ (State.revealPhase cur s s.params).pending.entries
          ↔ x ∈ s.pending.entries ∧ x ∉ due := by
  let due := s.pending.entries.filter (fun pr => addSat pr.commitHeight s.params.revealDelay ≤ cur)
  obtain ⟨hinv, -, hexec, hmem⟩ := h.executeReveals due
    (fun pr hpr => (List.mem_filter.mp hpr).1) (s.pending.nodup_entries.filter _)
  unfold State.revealPhase
  simp only
  split_ifs
  · have hfree : ∀ c ∈ (due.foldl State.executeReveal s).commits.entries.filter
        (fun c => addSat c.height s.params.maxRevealWindow < cur),
        (due.foldl State.executeReveal s).pending.get? c.key = none := by
      intro c hc
      have hstale := of_decide_eq_true (List.mem_filter.mp hc).2
      by_contra hsome
      obtain ⟨pr, hpr⟩ := Option.ne_none_iff_exists'.mp hsome
      have hkey : pr.key = c.key := key_of_get? hpr
      have hheight : pr.commitHeight = c.height := by
        simp only [PendingReveal.key, Commit.key, toLex_inj, Prod.mk.injEq] at hkey
        exact hkey.1
      obtain ⟨hpending, hnot⟩ := (hmem pr).mp (mem_of_get? hpr)
      -- the reveal of a stale commit has matured
      have hdelay := addSat_mono (a := c.height) (Params.validate_windows h.params).2.1
      refine hnot (List.mem_filter.mpr ⟨hpending, decide_eq_true ?_⟩)
      rw [hheight]
      omega
    obtain ⟨hinv', hexec', hpending'⟩ := hinv.dropStaleCommits _ hfree
    exact ⟨hinv', due, hexec'.trans hexec, fun x => hpending' ▸ hmem x⟩
  · exact ⟨hinv, due, hexec, hmem⟩

/-- **One step.** The invariant is kept, the log only grows, and a pending reveal is still pending,
or was executed by this step, or makes room for another opening of its own commit. -/
structure RevealStep (X : External) (n : Nat) (s s' : State) : Prop where
  inv : s'.RevealInv X n
  log : ∃ due, s'.revealsExecuted = s.revealsExecuted ++ due
    ∧ ∀ pr ∈ s.pending.entries, pr ∈ due ∨ ∃ pr' ∈ s'.pending.entries, pr'.key = pr.key

theorem RevealStep.same (h : s'.RevealInv X n)
    (hexec : s'.revealsExecuted = s.revealsExecuted) (hpending : s'.pending = s.pending) :
    RevealStep X n s s' :=
  ⟨h, [], by simp [hexec], fun pr hpr => .inr ⟨pr, hpending ▸ hpr, rfl⟩⟩

theorem RevealInv.accounts (h : s.RevealInv X n)
    (hsame : s'.accounts = s.accounts) : RevealStep X n s s' := by
  cases s
  cases s'
  cases hsame
  exact .same (h.congr h.params rfl rfl rfl rfl rfl) rfl rfl

theorem RevealInv.beginBlock (h : s.RevealInv X n) (exec : Executor) :
    RevealStep X n s (s.beginBlock X ctx exec) := by
  cases @beginBlock_run X ctx exec s with
  | inl hsame =>
    rw [hsame]
    exact .same h rfl rfl
  | inr hrun =>
    have hgc : (s.gcEncSubmitRate ctx.height).RevealInv X n :=
      h.congr h.params rfl rfl rfl rfl rfl
    obtain ⟨hinv, due, hexec, hmem⟩ := hgc.revealPhase ctx.height
    have hsame : _ = (State.revealPhase ctx.height (s.gcEncSubmitRate ctx.height)
      (s.gcEncSubmitRate ctx.height).params).offRelease := hrun.offRelease
    generalize s.beginBlock X ctx exec = t at hsame ⊢
    generalize State.revealPhase _ _ _ = u at hinv hexec hmem hsame
    cases t
    cases u
    cases hsame
    refine ⟨hinv.congr hinv.params rfl rfl rfl rfl rfl, due, hexec, fun pr hpr => ?_⟩
    by_cases hdue : pr ∈ due
    · exact .inl hdue
    · exact .inr ⟨pr, (hmem pr).mpr ⟨hpr, hdue⟩, rfl⟩

theorem RevealInv.step (h : s.RevealInv X ctx.height) (a : Action) :
    RevealStep X ctx.height s (s.step X ctx a) := by
  have hrefl : RevealStep X ctx.height s s := .same h rfl rfl
  cases a with
  | updateParams msg =>
    refine orElse_keeps hrefl fun s' hok => ?_
    obtain ⟨p, hvalid, rfl, -⟩ := updateParams_spec hok
    exact .same (h.congr hvalid rfl rfl rfl rfl rfl) rfl rfl
  | commitTx msg =>
    refine orElse_keeps hrefl fun s' hok => ?_
    have hinv := h.commitTx hok
    obtain ⟨_, _, _, _, rfl⟩ := commitTx_frame hok
    exact .same hinv rfl rfl
  | revealTx msg =>
    refine orElse_keeps hrefl fun s' hok => ?_
    refine ⟨h.revealTx hok, [], ?_, fun pr hpr => .inr ?_⟩
    · obtain ⟨-, -, -, -, -, -, -, -, -, rfl⟩ :=
        revealTx_spec (Params.validate_windows h.params).1 hok
      simp
    · obtain ⟨new, -, -, -, -, -, -, -, -, rfl⟩ :=
        revealTx_spec (Params.validate_windows h.params).1 hok
      by_cases hkey : pr.key = new.key
      · exact ⟨new, (mem_put_iff _ _ _).mpr (.inl rfl), hkey.symm⟩
      · exact ⟨pr, (mem_put_iff _ _ _).mpr (.inr ⟨hpr, hkey⟩), rfl⟩
  | submitEncrypted escrowed msg =>
    refine orElse_keeps hrefl fun s' hok => ?_
    obtain ⟨_, _, _, _, _, _, _, _, rfl⟩ := submitEncrypted_frame hok
    exact .same (h.congr h.params rfl rfl rfl rfl rfl) rfl rfl
  | beginBlock exec => exact h.beginBlock exec
  | submitDecryptionShare | dkgDeal | dkgComplaint | consumeVoteExtensions
  | ingestDecryptShareFromVE | endBlockDKG => exact h.accounts (step_accounts s rfl)

end State

/-! ## Runs -/

/-- The commits and reveals of a genesis imported at height `h` are those of a chain in progress:
each pending reveal is of an earlier block and opens an imported commit. A new chain has none. -/
structure GenesisState.RevealsOpen (X : External) (h : Nat) (gs : GenesisState) : Prop where
  room : gs.commits.length < 2 ^ 64
  pending : ∀ pr ∈ gs.pending, pr.commitHeight < h
    ∧ ∃ c, (State.importRecords gs).commits.get? pr.key = some c
      ∧ X.sha256 (pr.revealTx ++ pr.salt) = c.commitHash

theorem State.CommitCounts.setCommits {cs : List Commit} (h : s.CommitCounts)
    (hroom : s.commits.entries.length + cs.length < 2 ^ 64) :
    (cs.foldl State.setCommit s).CommitCounts := by
  induction cs generalizing s with
  | nil => exact h
  | cons c cs ih =>
    rw [List.length_cons] at hroom
    refine ih (h.setCommit c (by omega)) ?_
    have hcommits : (s.setCommit c).commits = s.commits.put c := by
      unfold State.setCommit
      simp only
      split_ifs <;> rfl
    have hlen : (s.commits.put c).entries.length ≤ s.commits.entries.length + 1 := by
      have hdel : (s.commits.del c.key).entries.length ≤ s.commits.entries.length :=
        List.length_filter_le _ _
      rw [(put_perm s.commits c).length_eq, List.length_cons]
      omega
    rw [hcommits]
    omega

theorem State.RevealInv.genesis {gs : GenesisState} {h : Nat}
    (hopen : gs.RevealsOpen X h) (hs : State.initGenesis X gs = .ok s) : s.RevealInv X h := by
  obtain ⟨hacc, rfl⟩ := State.initGenesis_spec hs
  obtain ⟨global, submitter, epoch, htxs⟩ := State.foldl_importEncTx_frame gs.encTxs (State.importRecords gs)
  have hcounts : (gs.commits.foldl State.setCommit { State.init with params := gs.params }
      ).CommitCounts :=
    State.CommitCounts.setCommits ⟨rfl, fun _ => rfl⟩ (by simpa [State.init] using hopen.room)
  obtain ⟨c, g, sc, hrec⟩ := State.importRecords_eq gs
  have hinv : (State.importRecords gs).RevealInv X h := by
    refine ⟨by rw [hrec]; exact hacc.params, ⟨hcounts.global, hcounts.sender⟩, fun pr hpr => ?_,
      fun pr hpr => ?_, by rw [hrec]; exact List.nodup_nil⟩
    · rw [hrec] at hpr
      exact hopen.pending pr (State.mem_foldl_put_empty hpr)
    · rw [hrec] at hpr
      cases hpr
  rw [htxs]
  exact hinv.congr hinv.params rfl rfl rfl rfl rfl

theorem Chain.Reachable.revealInv {allow : Allow} {gs : GenesisState} {h : Nat} {c : Chain}
    (hopen : gs.RevealsOpen X h) (hreach : Chain.Reachable X allow gs h c) :
    c.state.RevealInv X c.height :=
  hreach.invariant (I := fun c => c.state.RevealInv X c.height)
    (fun _ hs => State.RevealInv.genesis hopen hs)
    fun _ _ a hle _ hc => ((hc.advance hle).step a).inv

/-- Whatever a run does, a reveal that was pending is pending still or has been executed. -/
theorem State.RevealInv.run {allow : Allow} {c c' : Chain} (h : c.state.RevealInv X c.height)
    (hrun : Relation.ReflTransGen (Chain.Step X allow) c c')
    (hpr : pr ∈ c.state.pending.entries) : c'.state.RevealInv X c'.height
      ∧ ((∃ pr' ∈ c'.state.pending.entries, pr'.key = pr.key)
        ∨ ∃ pr' ∈ c'.state.revealsExecuted, pr'.key = pr.key) := by
  refine Reach.run_keeps (I := fun c' : Chain => c'.state.RevealInv X c'.height
    ∧ ((∃ pr' ∈ c'.state.pending.entries, pr'.key = pr.key)
      ∨ ∃ pr' ∈ c'.state.revealsExecuted, pr'.key = pr.key)) ?_ hrun ⟨h, .inl ⟨pr, hpr, rfl⟩⟩
  rintro d d' ⟨ctx, a, hle, -, rfl⟩ ⟨hinv, hwhere⟩
  obtain ⟨hinv', due, hlog, hmoves⟩ := (hinv.advance hle).step a
  refine ⟨hinv', ?_⟩
  obtain ⟨x, hx, hkey⟩ | ⟨x, hx, hkey⟩ := hwhere
  · obtain hdue | ⟨y, hy, hkey'⟩ := hmoves x hx
    · exact .inr ⟨x, hlog ▸ List.mem_append_right _ hdue, hkey⟩
    · exact .inl ⟨y, hy, hkey'.trans hkey⟩
  · exact .inr ⟨x, hlog ▸ List.mem_append_left _ hx, hkey⟩

namespace Sample

/-- A payload, its salt and the digest of the two. -/
def payload : Bytes := bytesOf "reveal me"

def salt : Bytes := bytesOf "salt"

def payloadDigest : Bytes :=
  beBytes 32 0x9D68138306657ABCD5964508FA16EBBBB65687EE68AA9C637CAF7545A7DA0C1C

def revealPrimitives : External :=
  .ofTables { points := points, digests := [(payload ++ salt, payloadDigest)]
              accounts := [account] }

def commitMsg : MsgCommitTx :=
  { sender := ⟨account, account_ne⟩, commitHash := payloadDigest }

def revealMsg : MsgRevealTx :=
  { sender := ⟨account, account_ne⟩, commitHeight := 10, seq := 0, revealTx := payload
    salt := salt }

/-- Governance sets the reveal delay and the reveal window to five blocks. -/
def fiveBlocks : MsgUpdateParams :=
  { authority := bytesOf "cosmos10d07y265gmmuvt4z0w9aw880jnsr700j6zn9kn"
    params := some { params with revealDelay := 5, maxRevealWindow := 5 } }

end Sample

open Sample

end EncMempool
