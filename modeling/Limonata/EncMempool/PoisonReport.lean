import Limonata.EncMempool.Epochs
import Limonata.EncMempool.Recovery
import Limonata.EncMempool.Accounts

/-!
# x/encmempool — the fate of a poison report within its block

A poison report accepted in the pre-block raises the strand streak of the serving epoch to the
threshold; the end-block of the same block reads it. In between, the begin-block bumps the streak
for every ciphertext of the epoch that strands and deletes it for every one that decrypts.

What the begin-block tries is determined by the state it starts from: `trials` lists the
ciphertexts in order with their outcome, all evaluated in that one state. The pass itself works on
a changing store, so the link is the relation `Frozen`: whatever was released so far, the material
of the ciphertexts still to be tried is the original one.
-/

namespace EncMempool

open Machine Check RecStore KVStore

variable {X : External} {ctx : Ctx}
variable {s t : State} {e : EncTx} {es : List EncTx} {epoch : Nat}

namespace State

/-! ## The store during the pass -/

/-- `t` has, for the current epoch and for the ciphertexts `es`, what `s` had. -/
structure Frozen (X : External) (s t : State) (es : List EncTx) : Prop where
  params : t.params = s.params
  current : t.currentEpoch = s.currentEpoch
  active : t.activeEpoch = s.activeEpoch
  clock : t.lastRekeyHeight = s.lastRekeyHeight
  encKeys : t.encPubKeys = s.encPubKeys
  round : t.rounds.get? s.currentEpoch = s.rounds.get? s.currentEpoch
  held : Held t es
  counts : t.CountersCover X
  keys : ∀ e ∈ es, t.activeKeys.get? e.epoch = s.activeKeys.get? e.epoch
  rounds : ∀ e ∈ es, t.rounds.get? e.epoch = s.rounds.get? e.epoch
  shareKeys : ∀ e ∈ es, ∀ i,
    t.shareKeys.lookup (key2 e.epoch i) = s.shareKeys.lookup (key2 e.epoch i)
  shares : ∀ e ∈ es,
    t.collectShares e.decryptHeight e.seq = s.collectShares e.decryptHeight e.seq

theorem Frozen.mono {es' : List EncTx} (h : Frozen X s t es) (hheld : Held t es')
    (hsub : ∀ e ∈ es', e ∈ es) : Frozen X s t es' :=
  { h with
    held := hheld
    keys := fun e he => h.keys e (hsub e he)
    rounds := fun e he => h.rounds e (hsub e he)
    shareKeys := fun e he => h.shareKeys e (hsub e he)
    shares := fun e he => h.shares e (hsub e he) }

theorem Frozen.streaks (h : Frozen X s t es) (st : KVStore Nat Nat) :
    Frozen X s { t with strandStreaks := st } es :=
  ⟨h.params, h.current, h.active, h.clock, h.encKeys, h.round, h.held.congr rfl,
    h.counts.of_pool rfl, h.keys, h.rounds, h.shareKeys, h.shares⟩

theorem collectShares_delWhere {shares : RecStore EncShare.key} {x : EncTx} (hne : x.key ≠ e.key) :
    (shares.delWhere (shareOf e.decryptHeight e.seq)).entries.filter
        (fun sh => sh.decryptHeight = x.decryptHeight ∧ sh.seq = x.seq)
      = shares.entries.filter (fun sh => sh.decryptHeight = x.decryptHeight ∧ sh.seq = x.seq) := by
  unfold RecStore.delWhere
  rw [List.filter_filter]
  refine List.filter_congr fun sh _ => ?_
  by_cases hx : sh.decryptHeight = x.decryptHeight ∧ sh.seq = x.seq
  · have hother : shareOf e.decryptHeight e.seq sh.key = false := by
      rw [Bool.eq_false_iff]
      intro hof
      obtain ⟨hheight, hseq⟩ := (shareOf_key3 _ _ _ _ _).mp hof
      exact hne (key2_inj.mpr ⟨hx.1.symm.trans hheight, hx.2.symm.trans hseq⟩)
    simp [hx, hother]
  · simp [hx]

/-- Releasing the first ciphertext leaves the material of the others, and the streak of the current
epoch, in place: a pruned epoch is not the current one and has no ciphertext left. -/
theorem Frozen.release (h : Frozen X s t (e :: es)) :
    Frozen X s (t.releaseEncTx X e) es
      ∧ (t.releaseEncTx X e).getDecryptStrandStreak s.currentEpoch
        = t.getDecryptStrandStreak s.currentEpoch := by
  have he : e ∈ t.encTxs.entries := h.held.1 e List.mem_cons_self
  have hheld : Held (t.releaseEncTx X e) es := h.held.release
  have hcounts : (t.withoutEncTx e).CountersCover X := h.counts.withoutEncTx he
  have hkeys : ∀ x ∈ es, x.key ≠ e.key := fun x hx hkey => by
    have hx' := hheld.1 x hx
    rw [(releaseEncTx_spec t e).1] at hx'
    exact ((mem_del_iff _ _ _).mp hx').2 hkey
  obtain ⟨ops, hrel⟩ := @releaseEncTx_eq X t e
  rw [hrel] at hheld ⊢
  obtain ⟨heq, -⟩ | ⟨-, hcurrent, hcount, hzero, heq⟩ :=
    (t.withoutEncTx e).maybePruneEpoch_cases e.epoch
  · rw [heq] at hheld ⊢
    exact ⟨⟨h.params, h.current, h.active, h.clock, h.encKeys, h.round, hheld, hcounts.of_pool rfl,
      fun x hx => h.keys x (.tail _ hx), fun x hx => h.rounds x (.tail _ hx),
      fun x hx => h.shareKeys x (.tail _ hx),
      fun x hx => (collectShares_delWhere (hkeys x hx)).trans (h.shares x (.tail _ hx))⟩, rfl⟩
  · rw [heq] at hheld ⊢
    have hcur : s.currentEpoch ≠ e.epoch := fun hsame => hcurrent (hsame.symm.trans h.current.symm)
    -- a later ciphertext of the pruned epoch would be counted
    have hother : ∀ x ∈ es, x.epoch ≠ e.epoch := fun x hx =>
      hcounts.not_mem hzero hcount x (hheld.1 x hx)
    refine ⟨⟨h.params, h.current, h.active, h.clock, h.encKeys, ?_, hheld, hcounts.of_pool rfl,
      fun x hx => ?_, fun x hx => ?_, fun x hx i => ?_,
      fun x hx => (collectShares_delWhere (hkeys x hx)).trans (h.shares x (.tail _ hx))⟩, ?_⟩
    · exact (get?_del_of_ne hcur).trans h.round
    · exact (get?_del_of_ne (hother x hx)).trans (h.keys x (.tail _ hx))
    · exact (get?_del_of_ne (hother x hx)).trans (h.rounds x (.tail _ hx))
    · show KVStore.lookup (t.shareKeys.delWhere _) _ = _
      rw [lookup_delWhere, keyHead_key2, if_neg (by simpa using hother x hx),
        h.shareKeys x (.tail _ hx) i]
    · show (KVStore.lookup (t.strandStreaks.del e.epoch) _).getD 0 = _
      rw [lookup_del, if_neg hcur]
      rfl

end State

/-! ## Trials -/

/-- What trying a ciphertext comes to. -/
inductive Trial where
  /-- Short of shares and within its grace. -/
  | waits
  /-- Short of shares and past its grace. -/
  | strands
  /-- Enough shares, but nothing opens; or a panic. -/
  | fails
  | opens
  /-- Opened, but too expensive for the rest of the block's gas. -/
  | defers
  deriving DecidableEq

/-- Whether the ciphertext leaves the store in the pass. -/
def Trial.settles : Trial → Bool
  | .strands | .fails | .opens => true
  | .waits | .defers => false

/-- Whether the ciphertext was decrypted. -/
def Trial.decrypts : Trial → Bool
  | .opens | .defers => true
  | .waits | .strands | .fails => false

namespace State

/-- The trial of one ciphertext in a state, with the gas it uses. -/
def trial (X : External) (exec : Executor) (execOn : Bool) (cur : Nat) (p : Params)
    (remaining : Nat) (s : State) (e : EncTx) : Trial × Nat :=
  match s.recoverSharedSecret X p e (s.collectShares e.decryptHeight e.seq) with
  | .panicked => (.fails, 0)
  | .short =>
    if addSat e.decryptHeight strandedDecryptGraceBlocks ≤ cur then (.strands, 0) else (.waits, 0)
  | .failed => (.fails, 0)
  | .shared P =>
    match decrypt X P e.nonce e.body with
    | none => (.fails, 0)
    | some plaintext =>
      if execOn = false then (.opens, 0)
      else match exec.run e plaintext remaining with
        | .panicked => (.opens, 0)
        | .gasDeferred => (.defers, 0)
        | .consumed gasUsed => (.opens, gasUsed)

/-- What the pass does with a trial. -/
def attemptOf (s : State) (e : EncTx) : Trial × Nat → Attempt
  | (.waits, _) => .candidate
  | (.strands, gas) => .consume (s.bumpDecryptStrandStreak e.epoch) gas
  | (.fails, gas) => .consume s gas
  | (.opens, gas) => .consume (s.resetDecryptStrandStreak e.epoch) gas
  | (.defers, _) => .deferExec (s.resetDecryptStrandStreak e.epoch)

theorem tryDecrypt_eq (exec : Executor) (execOn : Bool) (cur : Nat) (p : Params) (remaining : Nat)
    (s : State) (e : EncTx) :
    s.tryDecrypt X exec execOn cur p remaining e
      = s.attemptOf e (s.trial X exec execOn cur p remaining e) := by
  unfold tryDecrypt trial
  cases s.recoverSharedSecret X p e (s.collectShares e.decryptHeight e.seq) with
  | panicked => rfl
  | short => simp only; split_ifs <;> rfl
  | failed => rfl
  | shared P =>
    simp only
    cases decrypt X P e.nonce e.body with
    | none => rfl
    | some plaintext =>
      cases execOn with
      | false => rfl
      | true =>
        simp only
        cases exec.run e plaintext remaining <;> rfl

/-- The trials of a pass, all in the state `s`. -/
def trials (X : External) (exec : Executor) (execOn : Bool) (cur : Nat) (p : Params)
    (ceiling : Nat) (selected : List Nat) (s : State) :
    List (EncTx × Nat) → Nat → List (EncTx × Trial)
  | [], _ => []
  | (e, i) :: rest, gasUsed =>
    if i ∉ selected then trials X exec execOn cur p ceiling selected s rest gasUsed
    else if execOn ∧ ceiling ≤ gasUsed then []
    else match s.trial X exec execOn cur p (ceiling - gasUsed) e with
      | (.waits, _) =>
        (e, .waits) :: trials X exec execOn cur p ceiling selected s rest gasUsed
      | (.defers, _) => [(e, .defers)]
      | (outcome, gas) =>
        (e, outcome) :: trials X exec execOn cur p ceiling selected s rest (gasUsed + gas)

end State

/-- The ciphertexts the pass releases. -/
def settled (l : List (EncTx × Trial)) : List EncTx :=
  (l.filter fun r => r.2.settles).map Prod.fst

/-- The ciphertexts the pass keeps as candidates. -/
def waiting (l : List (EncTx × Trial)) : List EncTx :=
  (l.filter fun r => r.2 = .waits).map Prod.fst

/-- The trial decrypted a ciphertext of the epoch. -/
def decryptsIn (epoch : Nat) (r : EncTx × Trial) : Bool := r.1.epoch = epoch ∧ r.2.decrypts

/-- The trial stranded a ciphertext of the epoch. -/
def strandsIn (epoch : Nat) (r : EncTx × Trial) : Bool := r.1.epoch = epoch ∧ r.2 = .strands

/-- The streak of an epoch after one more trial. -/
def streakStep (epoch n : Nat) (r : EncTx × Trial) : Nat :=
  if decryptsIn epoch r then 0 else if strandsIn epoch r then wrap64 (n + 1) else n

namespace State

theorem Frozen.trial_eq (h : Frozen X s t es) (he : e ∈ es) (exec : Executor) (execOn : Bool)
    (cur : Nat) (p : Params) (remaining : Nat) :
    t.trial X exec execOn cur p remaining e = s.trial X exec execOn cur p remaining e := by
  have hrecover : ∀ shares, t.recoverSharedSecret X p e shares
      = s.recoverSharedSecret X p e shares := fun shares => by
    unfold recoverSharedSecret
    rw [h.keys e he, h.rounds e he, funext (h.shareKeys e he)]
  unfold trial
  rw [h.shares e he, hrecover]

theorem getDecryptStrandStreak_bump :
    (s.bumpDecryptStrandStreak e.epoch).getDecryptStrandStreak epoch
      = streakStep epoch (s.getDecryptStrandStreak epoch) (e, .strands) := by
  unfold getDecryptStrandStreak bumpDecryptStrandStreak streakStep decryptsIn strandsIn
  rw [lookup_update]
  by_cases h : e.epoch = epoch
  · simp [h, incCount, Trial.decrypts]
  · simp [h, Ne.symm h]

theorem getDecryptStrandStreak_reset {outcome : Trial} (hout : outcome.decrypts = true) :
    (s.resetDecryptStrandStreak e.epoch).getDecryptStrandStreak epoch
      = streakStep epoch (s.getDecryptStrandStreak epoch) (e, outcome) := by
  unfold getDecryptStrandStreak resetDecryptStrandStreak streakStep decryptsIn strandsIn
  rw [lookup_del]
  by_cases h : e.epoch = epoch
  · simp [h, hout]
  · simp [h, Ne.symm h]

theorem releaseAll_frozen {rest : List EncTx} (h : Frozen X s t (es ++ rest)) :
    ((∃ e ∈ es, e.bondPanics X = true) ∧ t.releaseAll X es = none)
      ∨ ((∀ e ∈ es, e.bondPanics X = false) ∧ ∃ t', t.releaseAll X es = some t'
        ∧ Frozen X s t' rest
        ∧ t'.getDecryptStrandStreak s.currentEpoch = t.getDecryptStrandStreak s.currentEpoch) := by
  induction es generalizing t with
  | nil => exact .inr ⟨nofun, t, rfl, h, rfl⟩
  | cons e es ih =>
    rw [releaseAll, release?]
    cases hbond : e.bondPanics X with
    | true => exact .inl ⟨⟨e, List.mem_cons_self, hbond⟩, rfl⟩
    | false =>
      obtain ⟨hnext, hstreak⟩ := Frozen.release h
      obtain ⟨⟨x, hx, hpanics⟩, hnone⟩ | ⟨hok, t', hsome, hfrozen, hstreak'⟩ := ih hnext
      · exact .inl ⟨⟨x, .tail _ hx, hpanics⟩, hnone⟩
      · exact .inr ⟨List.forall_mem_cons.mpr ⟨hbond, hok⟩, t', hsome, hfrozen,
          hstreak'.trans hstreak⟩

/-- The end of a pass with the trials `l` that began with the streak `n` and the candidates
`cands`: a panic on the bond of a settled ciphertext, or the waiting ones as further candidates and
the streak the trials add up to. -/
def PassEnds (X : External) (s : State) (n : Nat) (cands : List EncTx) (l : List (EncTx × Trial))
    (res : Option (State × List EncTx)) : Prop :=
  ((∃ e ∈ settled l, e.bondPanics X = true) ∧ res = none)
    ∨ ((∀ e ∈ settled l, e.bondPanics X = false) ∧ ∃ t', res = some (t', cands ++ waiting l)
      ∧ Frozen X s t' (cands ++ waiting l)
      ∧ t'.getDecryptStrandStreak s.currentEpoch = l.foldl (streakStep s.currentEpoch) n)

theorem PassEnds.settle {u : State} {cands : List EncTx} {outcome : Trial}
    {l : List (EncTx × Trial)} {n : Nat} {pass : State → Option (State × List EncTx)}
    (hu : Frozen X s u (e :: es)) (hout : outcome.settles = true)
    (hn : u.getDecryptStrandStreak s.currentEpoch = streakStep s.currentEpoch n (e, outcome))
    (hpass : ∀ t, Frozen X s t es →
      PassEnds X s (t.getDecryptStrandStreak s.currentEpoch) cands l (pass t)) :
    PassEnds X s n cands ((e, outcome) :: l) ((u.release? X e).bind pass) := by
  have hsettled : settled ((e, outcome) :: l) = e :: settled l := by simp [settled, hout]
  have hwaiting : waiting ((e, outcome) :: l) = waiting l := by
    cases outcome with
    | waits | defers => cases hout
    | strands | fails | opens => simp [waiting]
  unfold PassEnds release?
  rw [hsettled, hwaiting]
  cases hbond : e.bondPanics X with
  | true => exact .inl ⟨⟨e, List.mem_cons_self, hbond⟩, rfl⟩
  | false =>
    obtain ⟨hnext, hstreak⟩ := hu.release
    obtain ⟨⟨x, hx, hpanics⟩, hnone⟩ | ⟨hok, t', hsome, hfrozen, hend⟩ := hpass _ hnext
    · exact .inl ⟨⟨x, .tail _ hx, hpanics⟩, hnone⟩
    · refine .inr ⟨List.forall_mem_cons.mpr ⟨hbond, hok⟩, t', hsome, hfrozen, ?_⟩
      rw [hend, hstreak, hn, List.foldl_cons]

/-- **The pass follows the trials.** -/
theorem decryptPass_trials {exec : Executor} {execOn : Bool} {cur ceiling : Nat} {p : Params}
    {selected : List Nat} (todo : List (EncTx × Nat)) {gasUsed : Nat} {cands : List EncTx}
    (h : Frozen X s t (todo.map Prod.fst ++ cands)) :
    PassEnds X s (t.getDecryptStrandStreak s.currentEpoch) cands
      (trials X exec execOn cur p ceiling selected s todo gasUsed)
      (t.decryptPass X exec execOn cur p ceiling selected todo gasUsed cands) := by
  induction todo generalizing t gasUsed cands with
  | nil => exact .inr ⟨nofun, t, by simp [decryptPass, trials, waiting],
      by simpa [trials, waiting] using h, rfl⟩
  | cons entry rest ih =>
    obtain ⟨e, i⟩ := entry
    have hrest : Frozen X s t (rest.map Prod.fst ++ cands) :=
      h.mono (h.held.sublist (List.sublist_cons_self _ _)) fun x hx => .tail _ hx
    have hcands : Frozen X s t cands :=
      hrest.mono (hrest.held.sublist (List.sublist_append_right _ _))
        fun x hx => List.mem_append_right _ hx
    rw [trials, decryptPass]
    by_cases hsel : i ∉ selected
    · rw [if_pos hsel, if_pos hsel]
      exact ih hrest
    rw [if_neg hsel, if_neg hsel]
    by_cases hgas : execOn ∧ ceiling ≤ gasUsed
    · rw [if_pos hgas, if_pos hgas]
      exact .inr ⟨nofun, t, by simp [waiting], by simpa [waiting] using hcands, rfl⟩
    rw [if_neg hgas, if_neg hgas, tryDecrypt_eq, h.trial_eq List.mem_cons_self]
    obtain ⟨outcome, gas⟩ := s.trial X exec execOn cur p (ceiling - gasUsed) e
    cases outcome with
    | waits =>
      have hmoved : Frozen X s t (rest.map Prod.fst ++ (cands ++ [e])) := by
        refine h.mono (h.held.perm ?_) fun x hx => ?_
        · rw [← List.append_assoc]
          exact List.perm_append_singleton _ _
        · simpa [or_comm, or_assoc, or_left_comm] using hx
      have hend := @ih t gasUsed (cands ++ [e]) hmoved
      unfold PassEnds at hend ⊢
      simpa [settled, waiting, Trial.settles, streakStep, decryptsIn, strandsIn, Trial.decrypts,
        attemptOf] using hend
    | defers =>
      have hnone : waiting [(e, Trial.defers)] = [] := rfl
      rw [PassEnds, hnone, List.append_nil]
      exact .inr ⟨nofun, t.resetDecryptStrandStreak e.epoch, rfl, hcands.streaks _,
        getDecryptStrandStreak_reset rfl⟩
    | strands =>
      refine PassEnds.settle (h.streaks _) rfl ?_ fun u hu => ih hu
      exact getDecryptStrandStreak_bump
    | fails => exact PassEnds.settle h rfl (by simp [streakStep, decryptsIn, strandsIn, Trial.decrypts]) fun u hu => ih hu
    | opens =>
      refine PassEnds.settle (h.streaks _) rfl ?_ fun u hu => ih hu
      exact getDecryptStrandStreak_reset rfl

/-! ## The begin-block -/

/-- The matured ciphertexts the begin-block scans. -/
def maturedIn (ctx : Ctx) (s : State) : List EncTx :=
  (s.collectMaturedUpTo ctx.height maxDecryptScanPerBlock).1

/-- Those above the in-flight ceiling, which are dropped untried; newest first. -/
def droppedIn (ctx : Ctx) (s : State) : List EncTx :=
  (s.maturedIn ctx).reverse.take (s.ceilingDrops s.params (s.maturedIn ctx).length)

/-- Those the pass goes over. -/
def keptIn (ctx : Ctx) (s : State) : List EncTx :=
  (s.maturedIn ctx).take
    ((s.maturedIn ctx).length - s.ceilingDrops s.params (s.maturedIn ctx).length)

/-- The trials of the begin-block. -/
def blockTrials (X : External) (ctx : Ctx) (exec : Executor) (s : State) : List (EncTx × Trial) :=
  s.trials X exec (s.params.encExecEnabled && exec.wired) ctx.height s.params
    (decryptExecGasCeiling ctx) (selectFairDecrypts (s.keptIn ctx) maxDecryptAttemptsPerBlock)
    (s.keptIn ctx).zipIdx 0

/-- The candidates that get no deferral slot. -/
def shed (cands : List EncTx) : List EncTx :=
  (cands.zipIdx.filter (fun c => c.2 ∉ selectFairDecrypts cands maxDeferredDecryptsPerBlock)).map
    Prod.fst

/-- Every ciphertext the begin-block releases. -/
def blockReleases (X : External) (ctx : Ctx) (exec : Executor) (s : State) : List EncTx :=
  s.droppedIn ctx ++ settled (s.blockTrials X ctx exec)
    ++ shed (waiting (s.blockTrials X ctx exec))

theorem shed_sublist (cands : List EncTx) : (shed cands).Sublist cands := by
  have hsub := (List.filter_sublist (p := fun c : EncTx × Nat => decide (c.2 ∉
    selectFairDecrypts cands maxDeferredDecryptsPerBlock)) (l := cands.zipIdx)).map Prod.fst
  simpa [shed] using hsub

theorem held_split (ctx : Ctx) (s : State) : Held s (s.droppedIn ctx ++ s.keptIn ctx) := by
  refine (s.held_matured ctx.height maxDecryptScanPerBlock).perm ?_
  unfold droppedIn keptIn maturedIn
  rw [List.take_reverse]
  refine (List.Perm.append_right _ (List.reverse_perm _)).trans ?_
  exact List.perm_append_comm.trans (List.Perm.of_eq (List.take_append_drop _ _))

theorem decryptMatured_trials {exec : Executor} (h : Frozen X s t (s.droppedIn ctx ++ s.keptIn ctx))
    (htx : t.encTxs = s.encTxs) (hglobal : t.globalEncCount = s.globalEncCount) :
    ((∃ e ∈ s.blockReleases X ctx exec, e.bondPanics X = true)
        ∧ t.decryptMatured X ctx exec s.params = none)
      ∨ ((∀ e ∈ s.blockReleases X ctx exec, e.bondPanics X = false) ∧ ∃ t',
        t.decryptMatured X ctx exec s.params = some t' ∧ Frozen X s t' []
        ∧ t'.getDecryptStrandStreak s.currentEpoch
          = (s.blockTrials X ctx exec).foldl (streakStep s.currentEpoch)
            (t.getDecryptStrandStreak s.currentEpoch)) := by
  have hmatured : (t.collectMaturedUpTo ctx.height maxDecryptScanPerBlock).1 = s.maturedIn ctx := by
    unfold maturedIn collectMaturedUpTo
    rw [htx]
  have hdrop : t.ceilingDrops s.params (s.maturedIn ctx).length
      = s.ceilingDrops s.params (s.maturedIn ctx).length := by
    unfold ceilingDrops getGlobalEncCount
    rw [hglobal]
  unfold decryptMatured blockReleases
  simp only [hmatured, hdrop, List.mem_append, or_assoc]
  obtain ⟨⟨e, he, hpanics⟩, hnone⟩ | ⟨hok, u, hu, hfrozen, hstreak⟩ := releaseAll_frozen h
  · exact .inl ⟨⟨e, .inl he, hpanics⟩, by rw [← droppedIn, hnone]; rfl⟩
  rw [← droppedIn, hu, Option.bind_some]
  have hpass : PassEnds X s (u.getDecryptStrandStreak s.currentEpoch) [] (s.blockTrials X ctx exec)
      _ := decryptPass_trials (s.keptIn ctx).zipIdx (by simpa using hfrozen)
  obtain ⟨⟨e, he, hpanics⟩, hnone⟩ | ⟨hok', v, hv, hfrozen', hstreak'⟩ := hpass
  · exact .inl ⟨⟨e, .inr (.inl he), hpanics⟩, by rw [← keptIn, hnone]; rfl⟩
  rw [← keptIn, hv, Option.bind_some, List.nil_append]
  rw [List.nil_append] at hfrozen'
  obtain ⟨⟨e, he, hpanics⟩, hnone⟩ | ⟨hok'', w, hw, hfrozen'', hstreak''⟩ :=
    @releaseAll_frozen X s v (shed (waiting (s.blockTrials X ctx exec))) []
      (hfrozen'.mono (by simpa using hfrozen'.held.sublist (shed_sublist _))
        fun x hx => (shed_sublist _).subset (by simpa using hx))
  · exact .inl ⟨⟨e, .inr (.inr he), hpanics⟩, hnone⟩
  · refine .inr ⟨fun e he => ?_, w, hw, hfrozen'', ?_⟩
    · obtain he | he | he := he
      · exact hok e he
      · exact hok' e he
      · exact hok'' e he
    · rw [hstreak'', hstreak', hstreak]

/-- Whether the begin-block runs the decrypt pass. -/
def Decrypting (s : State) : Prop :=
  s.params.encEnabled = true ∧ (0 < s.params.threshold ∨ s.params.dkgEnabled = true)

/-- The streak of the current epoch after the begin-block. A bond that cannot be settled rolls the
whole handler back. -/
theorem beginBlock_streak (exec : Executor) (hcounts : s.CountersCover X) :
    Frozen X s (s.beginBlock X ctx exec) []
      ∧ (s.Decrypting ∧ (∀ e ∈ s.blockReleases X ctx exec, e.bondPanics X = false) →
        (s.beginBlock X ctx exec).getDecryptStrandStreak s.currentEpoch
          = (s.blockTrials X ctx exec).foldl (streakStep s.currentEpoch)
            (s.getDecryptStrandStreak s.currentEpoch))
      ∧ (¬ (s.Decrypting ∧ ∀ e ∈ s.blockReleases X ctx exec, e.bondPanics X = false) →
        (s.beginBlock X ctx exec).getDecryptStrandStreak s.currentEpoch
          = s.getDecryptStrandStreak s.currentEpoch) := by
  obtain ⟨c, pr, g, sc, l, hreveal⟩ :=
    revealPhase_frame ctx.height (s.gcEncSubmitRate ctx.height) s.params
  have hsame : Frozen X s s [] := ⟨rfl, rfl, rfl, rfl, rfl, rfl, ⟨nofun, List.nodup_nil⟩, hcounts,
    nofun, nofun, nofun, nofun⟩
  unfold beginBlock beginBlockBody Decrypting
  simp only
  generalize revealPhase ctx.height (s.gcEncSubmitRate ctx.height) s.params = t at hreveal ⊢
  have htx : t.encTxs = s.encTxs := hreveal ▸ rfl
  have hstart : ∀ es, Held s es → Frozen X s t es := fun es hes =>
    hreveal ▸ ⟨rfl, rfl, rfl, rfl, rfl, rfl, hes.congr rfl, hcounts.of_pool rfl, fun _ _ => rfl,
      fun _ _ => rfl, fun _ _ _ => rfl, fun _ _ => rfl⟩
  have hstreak : t.getDecryptStrandStreak s.currentEpoch = s.getDecryptStrandStreak s.currentEpoch :=
    hreveal ▸ rfl
  by_cases hon : s.params.encEnabled = true ∧ (0 < s.params.threshold ∨ s.params.dkgEnabled = true)
  · rw [if_pos hon]
    obtain ⟨⟨e, he, hpanics⟩, hnone⟩ | ⟨hok, t', hsome, hfrozen, hend⟩ :=
      @decryptMatured_trials X ctx s _ exec (hstart _ (s.held_split ctx)) htx
        (hreveal ▸ rfl)
    · rw [hnone, Option.getD_none]
      exact ⟨hsame, fun hok => absurd (hok.2 e he) (by simp [hpanics]), fun _ => rfl⟩
    · rw [hsome, Option.getD_some, hend, hstreak]
      exact ⟨hfrozen, fun _ => rfl, fun hn => absurd ⟨hon, hok⟩ hn⟩
  · rw [if_neg hon]
    have hdrained : Frozen X s ((if 0 < t.getGlobalEncCount then t.drainDisabledEncTx X ctx
          else some t).getD s) []
        ∧ ((if 0 < t.getGlobalEncCount then t.drainDisabledEncTx X ctx
          else some t).getD s).getDecryptStrandStreak s.currentEpoch
          = s.getDecryptStrandStreak s.currentEpoch := by
      split_ifs
      · unfold drainDisabledEncTx
        obtain ⟨-, hnone⟩ | ⟨-, t', hsome, hfrozen, hend⟩ := @releaseAll_frozen X s t
          (t.collectMaturedUpTo ctx.height maxDecryptScanPerBlock).1 []
          (hstart _ (by simpa using (held_matured t _ _).congr htx.symm))
        · rw [hnone]
          exact ⟨hsame, rfl⟩
        · rw [hsome]
          exact ⟨hfrozen, hend.trans hstreak⟩
      · exact ⟨hstart [] hsame.held, hstreak⟩
    exact ⟨hdrained.1, fun h => absurd h.1 hon, fun _ => hdrained.2⟩

end State

/-! ## Streaks over a block -/

/-- The ciphertexts of an epoch that strand after the last one of it that decrypts. -/
def strandsAfterDecrypt (epoch : Nat) (l : List (EncTx × Trial)) : Nat :=
  (l.reverse.takeWhile fun r => !decryptsIn epoch r).countP (strandsIn epoch)

/-- The trials add up to the strands after the last decryption, on top of the old streak if
nothing decrypts. -/
theorem foldl_streakStep {n : Nat} {l : List (EncTx × Trial)} (hroom : n + l.length < 2 ^ 64) :
    l.foldl (streakStep epoch) n
      = (if l.any (decryptsIn epoch) then 0 else n) + strandsAfterDecrypt epoch l := by
  -- from the end: the last trial decides whether the earlier ones count
  induction l using List.reverseRecOn with
  | nil => simp [strandsAfterDecrypt]
  | append_singleton l r ih =>
    rw [List.length_append, List.length_singleton] at hroom
    have hle : strandsAfterDecrypt epoch l ≤ l.length := by
      unfold strandsAfterDecrypt
      refine List.countP_le_length.trans ((List.takeWhile_sublist _).length_le.trans ?_)
      rw [List.length_reverse]
    have hbase : (if l.any (decryptsIn epoch) then 0 else n) ≤ n := by split_ifs <;> omega
    have hany : (l ++ [r]).any (decryptsIn epoch)
        = (l.any (decryptsIn epoch) || decryptsIn epoch r) := by simp
    rw [List.foldl_append, ih (by omega), List.foldl_cons, List.foldl_nil, hany, streakStep]
    unfold strandsAfterDecrypt at hle ⊢
    rw [List.reverse_append, List.reverse_singleton, List.singleton_append, List.takeWhile_cons]
    cases hdec : decryptsIn epoch r with
    | true => simp
    | false =>
      rw [Bool.or_false]
      cases hstrands : strandsIn epoch r with
      | true =>
        rw [wrap64_of_lt (by omega)]
        simp [hstrands, Nat.add_assoc]
      | false => simp [hstrands]

namespace State

/-- The begin-block forgets a report: it runs through, a ciphertext of the current epoch decrypts,
and too few strand after the last one that does. -/
def ReportLost (X : External) (ctx : Ctx) (exec : Executor) (s : State) : Prop :=
  s.Decrypting ∧ (∀ e ∈ s.blockReleases X ctx exec, e.bondPanics X = false)
    ∧ (s.blockTrials X ctx exec).any (decryptsIn s.currentEpoch) = true
    ∧ strandsAfterDecrypt s.currentEpoch (s.blockTrials X ctx exec) < decryptHealthStrandThreshold

instance (s : State) : Decidable s.Decrypting := inferInstanceAs (Decidable (_ ∧ _))

instance (exec : Executor) (s : State) : Decidable (ReportLost X ctx exec s) :=
  inferInstanceAs (Decidable (_ ∧ _ ∧ _ ∧ _))

theorem trials_length (exec : Executor) (execOn : Bool) (cur : Nat) (p : Params) (ceiling : Nat)
    (selected : List Nat) (s : State) (todo : List (EncTx × Nat)) (gasUsed : Nat) :
    (s.trials X exec execOn cur p ceiling selected todo gasUsed).length ≤ todo.length := by
  induction todo generalizing gasUsed with
  | nil => exact le_rfl
  | cons entry rest ih =>
    obtain ⟨e, i⟩ := entry
    rw [trials, List.length_cons]
    split_ifs
    · exact Nat.zero_le _
    · split
      · exact Nat.succ_le_succ (ih gasUsed)
      · exact Nat.succ_le_succ (Nat.zero_le _)
      · exact Nat.succ_le_succ (ih _)
    · exact (ih gasUsed).trans (Nat.le_succ _)

theorem blockTrials_length (exec : Executor) (s : State) :
    (s.blockTrials X ctx exec).length ≤ maxDecryptScanPerBlock := by
  refine (trials_length _ _ _ _ _ _ _ _ _).trans ?_
  rw [List.length_zipIdx]
  unfold keptIn maturedIn collectMaturedUpTo
  exact (List.length_take_le' _ _).trans (List.length_take_le _ _)

/-- A streak at the threshold survives the begin-block unless it is forgotten. -/
theorem beginBlock_keeps_streak (exec : Executor) (hcounts : s.CountersCover X)
    (hstreak : decryptHealthStrandThreshold ≤ s.getDecryptStrandStreak s.currentEpoch)
    (hroom : s.getDecryptStrandStreak s.currentEpoch + maxDecryptScanPerBlock < 2 ^ 64) :
    decryptHealthStrandThreshold ≤ (s.beginBlock X ctx exec).getDecryptStrandStreak s.currentEpoch
      ↔ ¬ ReportLost X ctx exec s := by
  obtain ⟨-, hrun, hskip⟩ := @beginBlock_streak X ctx s exec hcounts
  have hlen := @blockTrials_length X ctx exec s
  by_cases hruns : s.Decrypting ∧ ∀ e ∈ s.blockReleases X ctx exec, e.bondPanics X = false
  · rw [hrun hruns, foldl_streakStep (by omega)]
    unfold ReportLost
    by_cases hdec : (s.blockTrials X ctx exec).any (decryptsIn s.currentEpoch) = true
    · rw [if_pos hdec, Nat.zero_add]
      exact ⟨fun hle hlost => absurd hlost.2.2.2 (Nat.not_lt.mpr hle),
        fun hkept => Nat.le_of_not_lt fun hlt => hkept ⟨hruns.1, hruns.2, hdec, hlt⟩⟩
    · rw [if_neg hdec]
      exact ⟨fun _ hlost => hdec hlost.2.2.1, fun _ => hstreak.trans (Nat.le_add_right _ _)⟩
  · rw [hskip hruns]
    exact ⟨fun _ hlost => hruns ⟨hlost.1, hlost.2.1⟩, fun _ => hstreak⟩

/-! ## The pre-block -/

/-- The streak of the epoch is at the threshold. -/
def Marked (epoch : Nat) (s : State) : Prop :=
  decryptHealthStrandThreshold ≤ s.getDecryptStrandStreak epoch

theorem marked_forceDecryptHealthRekey (s : State) (epoch : Nat) :
    (s.forceDecryptHealthRekey epoch).Marked epoch := by
  unfold forceDecryptHealthRekey Marked
  split_ifs with h
  · exact h
  · simp [getDecryptStrandStreak, lookup_assign]

/-- What an ingested report does to the streak: a stored one marks the epoch, and a mark stays. -/
def Marks (epoch : Nat) (s : State) (stored : Prop) (s' : State) : Prop :=
  s'.activeEpoch = s.activeEpoch ∧ (stored ∨ s.Marked epoch → s'.Marked epoch)

theorem ingestPoisonReportFromVE_marks (s : State) (round : DkgRound) (operator : Bytes)
    (c : VoteExtComplaint) :
    Marks round.epoch s ((s.ingestPoisonReportFromVE X round operator c).stored = true)
      (s.ingestPoisonReportFromVE X round operator c).state := by
  refine ingestPoisonReportFromVE_induct (P := fun o => Marks round.epoch s (o.stored = true) o.state)
    ⟨rfl, fun h => h.resolve_left nofun⟩ (fun idx _ _ => ⟨?_, fun _ => marked_forceDecryptHealthRekey _ _⟩)
    fun _ _ => ⟨rfl, fun h => h.resolve_left nofun⟩
  unfold forceDecryptHealthRekey
  split_ifs <;> rfl

theorem ingestComplaints_marks {ingest : State → VoteExtComplaint → ComplaintOutcome}
    (hingest : ∀ s c, Marks epoch s ((ingest s c).stored = true) (ingest s c).state)
    (cs : List VoteExtComplaint) (verifies : Nat) (s : State) :
    Marks epoch s (0 < (ingestComplaints ingest verifies s cs).2)
      (ingestComplaints ingest verifies s cs).1 := by
  induction cs generalizing verifies s with
  | nil => exact ⟨rfl, fun h => h.resolve_left (lt_irrefl 0)⟩
  | cons c cs ih =>
    rw [ingestComplaints]
    split_ifs
    · exact ⟨rfl, fun h => h.resolve_left (lt_irrefl 0)⟩
    · obtain ⟨hactive, hmark⟩ := hingest s c
      obtain ⟨hactive', hmark'⟩ := ih (verifies + (ingest s c).verifies) (ingest s c).state
      refine ⟨hactive'.trans hactive, fun h => hmark' ?_⟩
      -- stored here, stored later, or marked before
      by_cases hstored : (ingest s c).stored = true
      · exact .inr (hmark (.inl hstored))
      · simp only [hstored] at h
        exact h.imp_right fun hs => hmark (.inr hs)

theorem ingestEntries_marks {ingest : State → VEEntry → State × Nat}
    (hingest : ∀ s e, Marks epoch s (0 < (ingest s e).2) (ingest s e).1) (es : List VEEntry)
    (s : State) :
    Marks epoch s (0 < (ingestEntries ingest s es).2) (ingestEntries ingest s es).1 := by
  induction es generalizing s with
  | nil => exact ⟨rfl, fun h => h.resolve_left (lt_irrefl 0)⟩
  | cons e es ih =>
    obtain ⟨hactive, hmark⟩ := hingest s e
    obtain ⟨hactive', hmark'⟩ := ih (ingest s e).1
    refine ⟨hactive'.trans hactive, fun h => hmark' ?_⟩
    obtain hcount | hs := h
    · by_cases hhere : 0 < (ingest s e).2
      · exact .inr (hmark (.inl hhere))
      · rw [ingestEntries] at hcount
        exact .inl (by simp only at hcount; omega)
    · exact .inr (hmark (.inr hs))

theorem poisonPhase_marks {canon : List VEEntry} (hstored : 0 < (s.poisonPhase X canon).2) :
    (s.poisonPhase X canon).1.activeEpoch = s.activeEpoch
      ∧ (s.poisonPhase X canon).1.Marked s.activeEpoch := by
  unfold poisonPhase at hstored ⊢
  by_cases hzero : s.activeEpoch = 0
  · simp [hzero] at hstored
  rw [if_neg hzero] at hstored ⊢
  cases hround : s.rounds.get? s.activeEpoch with
  | none => simp [hround] at hstored
  | some round =>
    simp only [hround] at hstored ⊢
    have hepoch : round.epoch = s.activeEpoch := key_of_get? hround
    by_cases hactive : round.status = .active
    · rw [if_pos hactive] at hstored ⊢
      obtain ⟨hsame, hmark⟩ := @ingestEntries_marks round.epoch _
        (fun t e => ingestComplaints_marks
          (fun u c => ingestPoisonReportFromVE_marks (X := X) u round e.operator c)
          (e.ve.poisonReports.take round.members.length) 0 t) canon s
      exact ⟨hsame, hepoch ▸ hmark (.inl hstored)⟩
    · simp [hactive] at hstored

theorem consumeVoteExtensions_marks {entries : List VEEntry}
    (haccepted : 0 < s.poisonReportsAccepted X ctx entries) :
    (s.consumeVoteExtensions X ctx entries).Marked
      (s.consumeVoteExtensions X ctx entries).activeEpoch := by
  unfold poisonReportsAccepted at haccepted
  by_cases hoff : s.params.dkgEnabled = false ∨ s.params.dkgTransparent = false
  · rw [if_pos hoff] at haccepted
    exact absurd haccepted (lt_irrefl 0)
  rw [if_neg hoff] at haccepted
  unfold consumeVoteExtensions
  simp only [if_neg hoff]
  obtain ⟨hactive, hmark⟩ := poisonPhase_marks haccepted
  obtain ⟨es, rs, hframe⟩ := @ingestDecryptSharesBounded_frame X ctx
    (((s.consumeDkg X ctx (canonicalEntries entries)).poisonPhase X
      (canonicalEntries entries)).1) s.params (canonicalEntries entries)
  rw [hframe]
  exact hactive.symm ▸ hmark

end State

/-! ## The transactions of the block -/

/-- The messages of users; governance and the block phases are not among them. -/
def Action.isUserMessage : Action → Bool
  | .commitTx _ | .revealTx _ | .submitEncrypted _ _ | .submitDecryptionShare _ | .dkgDeal _
  | .dkgComplaint _ => true
  | .updateParams _ | .consumeVoteExtensions _ | .ingestDecryptShareFromVE _ _ | .beginBlock _
  | .endBlockDKG => false

namespace State

/-- What the rekey decision of the end-block reads. -/
structure SameRekey (s t : State) : Prop where
  params : t.params = s.params
  current : t.currentEpoch = s.currentEpoch
  round : t.rounds.get? s.currentEpoch = s.rounds.get? s.currentEpoch
  clock : t.lastRekeyHeight = s.lastRekeyHeight
  encKeys : t.encPubKeys = s.encPubKeys
  streak : t.getDecryptStrandStreak s.currentEpoch = s.getDecryptStrandStreak s.currentEpoch

theorem SameRekey.refl (s : State) : SameRekey s s := ⟨rfl, rfl, rfl, rfl, rfl, rfl⟩

theorem SameRekey.trans {u : State} (h : SameRekey s t) (h' : SameRekey t u) :
    SameRekey s u :=
  ⟨h'.params.trans h.params, h'.current.trans h.current,
    (h.current ▸ h'.round).trans h.round, h'.clock.trans h.clock, h'.encKeys.trans h.encKeys,
    (h.current ▸ h'.streak).trans h.streak⟩

theorem step_sameRekey (s : State) {a : Action} (hmsg : a.isUserMessage = true) :
    SameRekey s (s.step X ctx a) := by
  cases a with
  | commitTx msg =>
    refine orElse_keeps (.refl s) fun s' h => ?_
    obtain ⟨_, _, _, _, rfl⟩ := commitTx_frame h
    exact ⟨rfl, rfl, rfl, rfl, rfl, rfl⟩
  | revealTx msg =>
    refine orElse_keeps (.refl s) fun s' h => ?_
    obtain ⟨_, rfl⟩ := revealTx_frame h
    exact ⟨rfl, rfl, rfl, rfl, rfl, rfl⟩
  | submitEncrypted escrowed msg =>
    refine orElse_keeps (.refl s) fun s' h => ?_
    obtain ⟨_, _, _, _, _, _, _, _, rfl⟩ := submitEncrypted_frame h
    exact ⟨rfl, rfl, rfl, rfl, rfl, rfl⟩
  | submitDecryptionShare msg =>
    refine orElse_keeps (.refl s) fun s' h => ?_
    obtain ⟨-, -, -, rfl⟩ := submitDecryptionShare_spec h
    exact ⟨rfl, rfl, rfl, rfl, rfl, rfl⟩
  | dkgDeal msg =>
    refine orElse_keeps (.refl s) fun s' h => ?_
    obtain ⟨_, _, -, -, -, -, -, rfl⟩ := dkgDeal_spec h
    exact ⟨rfl, rfl, rfl, rfl, rfl, rfl⟩
  | dkgComplaint msg =>
    refine orElse_keeps (.refl s) fun s' h => ?_
    obtain ⟨_, -, rfl⟩ := dkgComplaint_spec h
    exact ⟨rfl, rfl, rfl, rfl, rfl, rfl⟩
  | updateParams | consumeVoteExtensions | ingestDecryptShareFromVE | beginBlock | endBlockDKG =>
    cases hmsg

/-- The state after the transactions of a block. -/
def deliver (X : External) (ctx : Ctx) (s : State) (txs : List Action) : State :=
  txs.foldl (fun s a => s.step X ctx a) s

theorem deliver_sameRekey {txs : List Action} (htxs : ∀ a ∈ txs, a.isUserMessage = true) :
    SameRekey s (s.deliver X ctx txs) :=
  Reach.foldl_keeps (I := fun t => SameRekey s t)
    (fun t a ha ht => ht.trans (step_sameRekey t (htxs a ha))) (.refl s)

/-! ## The block -/

end State

/-- The epoch counters cover the stored ciphertexts in every reachable state, wraps included. -/
theorem Chain.Reachable.countersCover {allow : Allow} {gs : GenesisState} {h : Nat} {c : Chain}
    (hreach : Chain.Reachable X allow gs h c) (hlen : gs.encTxs.length < 2 ^ 64) :
    c.state.CountersCover X := by
  refine hreach.by_writes (w := ⟨True, True, True⟩) (I := fun _ s => s.CountersCover X) trivial (.inl trivial)
    (.inl trivial) (fun s hs => (State.PoolInv.genesis hlen hs).cover) (fun _ _ _ _ hs => hs)
    (fun ctx s s' hwrite hs => State.CountersCover.write hwrite hs)
    (fun _ s p hvalid _ hs => ⟨hvalid, hs.cover, hs.slack, hs.room⟩)
    (fun ctx s s' msg _ hok hs => ?_)
  obtain ⟨-, -, -, rfl⟩ := State.submitDecryptionShare_spec hok
  exact hs.of_pool rfl

namespace State

/-- A rekey with an unchanged member set that no health trigger asks for: outside the rekey gap,
the round is too old or the stake has drifted too far. -/
def StaleRekey (s : State) (round : DkgRound) (live : List RoundMember) (h : Nat) (p : Params) :
    Prop :=
  rekeyDampened s p h = false
    ∧ ((0 < p.dkgMaxEpochBlocks ∧ addSat round.openHeight p.dkgMaxEpochBlocks ≤ h)
      ∨ (0 < p.dkgRekeyOnStakeDriftBps ∧ ∃ bps,
        committeeMaxCoalitionDriftBps round.members live = some bps
          ∧ p.dkgRekeyOnStakeDriftBps ≤ bps))

theorem stakeDriftRekeyDue_iff {round : DkgRound} {live : List RoundMember} {h : Nat} {p : Params}
    (htransparent : p.dkgTransparent = true) :
    stakeDriftRekeyDue s round live h p = some true
      ↔ s.Marked round.epoch ∨ StaleRekey s round live h p := by
  unfold stakeDriftRekeyDue StaleRekey Marked
  rw [if_neg (by simp [htransparent])]
  by_cases hmarked : decryptHealthStrandThreshold ≤ s.getDecryptStrandStreak round.epoch
  · simp [hmarked]
  · rw [if_neg hmarked]
    simp only [hmarked, false_or]
    cases hdamp : rekeyDampened s p h with
    | true => simp
    | false =>
      rw [if_neg (by simp)]
      split_ifs with hoff hcadence hdrift
      · simp [hoff.1, hoff.2]
      · simp [hcadence]
      · simp [hcadence, hdrift]
      · simp [hcadence, hdrift]

/-- **The fate of a poison report.** Take any reachable state and a block on it whose pre-block
accepts a poison report, with `s` the state after the pre-block: the serving epoch is the current
one, its round is active, its member set unchanged and the DKG may run. The end-block of that block
opens the next epoch, unless the begin-block forgot the report and no other trigger is due. -/
theorem poisonReport_recovers_iff {gs : GenesisState} (hlen : gs.encTxs.length < 2 ^ 64) {h₀ : Nat}
    {c : Chain} (hreach : Chain.Reachable X (fun _ _ _ => True) gs h₀ c) {entries : List VEEntry}
    (haccepted : 0 < c.state.poisonReportsAccepted X ctx entries) {s : State}
    (hpre : s = c.state.consumeVoteExtensions X ctx entries) {round : DkgRound}
    (hserving : Serving ctx s round) (hcurrent : s.activeEpoch = s.currentEpoch)
    (hsame : round.membersHash = membersHash X (activeMembers ctx s s.params))
    (hfit : StakesFit round.members (activeMembers ctx s s.params) s.params.effectiveShareBudget)
    (hroom : s.getDecryptStrandStreak s.currentEpoch + maxDecryptScanPerBlock < 2 ^ 64)
    (exec : Executor) {txs : List Action} (htxs : ∀ a ∈ txs, a.isUserMessage = true) :
    OpensNext ctx s (((s.beginBlock X ctx exec).deliver X ctx txs).endBlockDKG X ctx)
      ↔ s.currentEpoch + 1 < 2 ^ 64
        ∧ (¬ ReportLost X ctx exec s
          ∨ StaleRekey s round (activeMembers ctx s s.params) ctx.height s.params) := by
  have hcounts : s.CountersCover X := by
    rw [hpre]
    exact Reach.run_keeps (I := State.CountersCover X)
      (fun _ _ hwrite hs => CountersCover.write (w := ⟨True, True, True⟩) hwrite hs)
      (consumeVoteExtensions_writes c.state entries).writes (hreach.countersCover hlen)
  have hmarked : decryptHealthStrandThreshold ≤ s.getDecryptStrandStreak s.currentEpoch := by
    rw [← hcurrent, hpre]
    exact consumeVoteExtensions_marks haccepted
  have hfrozen : Frozen X s (s.beginBlock X ctx exec) [] := (beginBlock_streak exec hcounts).1
  have hdeliver := @deliver_sameRekey X ctx (s.beginBlock X ctx exec) txs htxs
  have hkept := @beginBlock_keeps_streak X ctx s exec hcounts hmarked hroom
  generalize s.beginBlock X ctx exec = t at hfrozen hdeliver hkept
  generalize t.deliver X ctx txs = u at hdeliver
  have hparams : u.params = s.params := hdeliver.params.trans hfrozen.params
  have hcur : u.currentEpoch = s.currentEpoch := hdeliver.current.trans hfrozen.current
  have hclock : u.lastRekeyHeight = s.lastRekeyHeight := hdeliver.clock.trans hfrozen.clock
  have hlast : u.lastRound = s.lastRound := by
    unfold lastRound
    rw [hcur, ← hfrozen.round, ← hfrozen.current, hdeliver.round]
  have hlive : activeMembers ctx u u.params = activeMembers ctx s s.params := by
    rw [hparams]
    refine activeMembers_congr _ fun op _ => ?_
    unfold getEncPubKey
    rw [hdeliver.encKeys, hfrozen.encKeys]
  have hserving' : Serving ctx u round :=
    ⟨hparams ▸ hserving.runnable, hparams ▸ hserving.transparent, hlast.trans hserving.last,
      hserving.active, hlive ▸ hserving.members⟩
  have hepoch : round.epoch = s.currentEpoch := (get?_of_lastRound hserving.last).2.1
  have hmark' : u.Marked round.epoch ↔ ¬ ReportLost X ctx exec s := by
    rw [← hkept, hepoch, Marked, ← hfrozen.current, hdeliver.streak]
  have hstale : StaleRekey u round (activeMembers ctx s s.params) ctx.height s.params
      ↔ StaleRekey s round (activeMembers ctx s s.params) ctx.height s.params := by
    unfold StaleRekey rekeyDampened
    rw [hclock]
  have hopens : OpensNext ctx s (u.endBlockDKG X ctx) ↔ OpensNext ctx u (u.endBlockDKG X ctx) := by
    unfold OpensNext
    rw [hcur]
  rw [hopens, endBlockDKG_opensNext_iff hserving' (by rw [hlive, hparams]; exact hfit), hcur]
  unfold Superseded
  rw [hlive, hparams, if_neg (by simp [hsame]), stakeDriftRekeyDue_iff hserving.transparent, hmark',
    hstale]

open Sample

/-- The ciphertext of the sample is still waiting for shares in the block of the report. -/
theorem poisonReport_recovers_waiting : ∃ c,
    Chain.Reachable pairPrimitives (fun _ _ _ => True) (poisonedGenesis []) 99 c
      ∧ 0 < c.state.poisonReportsAccepted pairPrimitives reportBlock
        [poisonVote 1]
      ∧ OpensNext reportBlock (reported c)
        ((((reported c).beginBlock pairPrimitives reportBlock
          noExecutor).deliver pairPrimitives reportBlock []).endBlockDKG
            pairPrimitives reportBlock) := by
  obtain ⟨c, hreach, haccepted, hserving, hcurrent, hsame, hfit, hroom, hkept⟩ : ∃ c,
      Chain.Reachable pairPrimitives (fun _ _ _ => True) (poisonedGenesis []) 99 c
        ∧ 0 < c.state.poisonReportsAccepted pairPrimitives reportBlock
          [poisonVote 1]
        ∧ Serving reportBlock (reported c) (pairRound 1 .active)
        ∧ (reported c).activeEpoch = (reported c).currentEpoch
        ∧ (pairRound 1 .active).membersHash = membersHash pairPrimitives
          (activeMembers reportBlock (reported c) (reported c).params)
        ∧ StakesFit (pairRound 1 .active).members
          (activeMembers reportBlock (reported c) (reported c).params)
          (reported c).params.effectiveShareBudget
        ∧ (reported c).getDecryptStrandStreak (reported c).currentEpoch
          + maxDecryptScanPerBlock < 2 ^ 64
        ∧ (reported c).currentEpoch + 1 < 2 ^ 64
        ∧ ¬ ReportLost pairPrimitives reportBlock noExecutor
          (reported c) :=
    Chain.exists_reachable [] (by decide +kernel)
  refine ⟨c, hreach, haccepted, ?_⟩
  exact (poisonReport_recovers_iff (by decide) hreach haccepted rfl hserving hcurrent hsame hfit
    hroom noExecutor (by simp)).mpr ⟨hkept.1, .inl hkept.2⟩

/-- A ciphertext that decrypts in the block of the report: the streak is gone when the end-block
looks at it. -/
theorem poisonReport_forgotten : ∃ c,
    Chain.Reachable pairPrimitives (fun _ _ _ => True)
        (poisonedGenesis [dealerShare]) 99 c
      ∧ 0 < c.state.poisonReportsAccepted pairPrimitives reportBlock
        [poisonVote 1]
      ∧ Serving reportBlock (reported c) (pairRound 1 .active)
      ∧ (reported c).activeEpoch = (reported c).currentEpoch
      ∧ (pairRound 1 .active).membersHash = membersHash pairPrimitives
        (activeMembers reportBlock (reported c) (reported c).params)
      ∧ ¬ OpensNext reportBlock (reported c)
        (((reported c).beginBlock pairPrimitives reportBlock
          noExecutor).endBlockDKG pairPrimitives reportBlock) :=
  Chain.exists_reachable [] (by decide +kernel)

end State

end EncMempool
