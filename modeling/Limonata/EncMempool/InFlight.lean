import Limonata.EncMempool.Simulation

/-!
# x/encmempool — the ciphertexts in flight

Three properties of every run: the in-flight counters count the stored ciphertexts exactly, no share
is stored ahead of its height, and no share or marker outlives its ciphertext. The first needs the
sequence counter not to wrap, since a reused key overwrites a ciphertext without releasing it; the
last fails on one path, a legacy share while the DKG is off.
-/

namespace EncMempool

open Machine Check RecStore KVStore

variable {X : External} {ctx : Ctx} {w : Wraps}

/-! ## Counter records -/

/-- The record of a count: absent exactly when the count is zero. -/
def countRecord (n : Nat) : Option Nat := if n = 0 then none else some n

@[simp] theorem countRecord_getD (n : Nat) : (countRecord n).getD 0 = n := by
  unfold countRecord
  split_ifs with h
  · exact h.symm
  · rfl

@[simp] theorem countRecord_eq_none {n : Nat} : countRecord n = none ↔ n = 0 := by
  unfold countRecord
  split_ifs with h <;> simp [h]

theorem incCount_countRecord {n : Nat} (h : n + 1 < 2 ^ 64) :
    incCount (countRecord n) = countRecord (n + 1) := by
  rw [incCount, countRecord_getD, wrap64_of_lt h]
  rfl

theorem decCount_countRecord (n : Nat) : decCount (countRecord (n + 1)) = countRecord n := by
  rw [decCount, countRecord_getD]
  unfold countRecord
  by_cases h : n = 0
  · simp [h]
  · rw [if_neg (by omega), if_neg h]
    rfl

section Records

variable {K V : Type} [LinearOrder K] {key : V → K} {st : RecStore key} {v : V}

theorem countRecord_put (hfresh : st.get? (key v) = none) (hroom : st.entries.length + 1 < 2 ^ 64)
    (p : V → Bool) : countRecord ((st.put v).count p)
      = if p v then incCount (countRecord (st.count p)) else countRecord (st.count p) := by
  have hle : st.count p ≤ st.entries.length := List.countP_le_length
  rw [count_put_fresh hfresh]
  split_ifs with h
  · rw [incCount_countRecord (by omega)]
  · rfl

theorem countRecord_del {k : K} (hget : st.get? k = some v) (p : V → Bool) :
    countRecord ((st.del k).count p)
      = if p v then decCount (countRecord (st.count p)) else countRecord (st.count p) := by
  rw [← count_del hget p]
  split_ifs with h
  · rw [decCount_countRecord]
  · rfl

end Records

/-! ## Exact counters -/

/-- Every in-flight counter is the record of the number of ciphertexts it counts. -/
structure State.CountersExact (s : State) : Prop where
  global : s.globalEncCount = countRecord (s.encTxs.count fun _ => true)
  submitter : ∀ a, s.submitterEncCounts.lookup a
    = countRecord (s.encTxs.count fun e => e.submitter = a)
  epoch : ∀ ep, 0 < ep → s.epochEncCounts.lookup ep
    = countRecord (s.encTxs.count fun e => e.epoch = ep)

/-- What keeps the counters exact: fresh sequence numbers and room in the counter words. -/
structure State.PoolInv (X : External) (s : State) : Prop where
  params : s.params.validate X = .ok ()
  seq : ∀ e ∈ s.encTxs.entries, e.seq < s.encSeq
  room : s.encTxs.entries.length < 2 ^ 64
  exact : s.CountersExact

variable {s s' : State} {e : EncTx}

namespace State

theorem count_true (s : State) : s.encTxs.count (fun _ => true) = s.encTxs.entries.length := by
  simp [RecStore.count]

theorem count_stampBond (s : State) (he : e ∈ s.encTxs.entries) (bond burn : Nat) (denom : Bytes)
    (p : EncTx → Bool) (hp : p { e with bond := bond, bondDenom := denom, bondBurn := burn } = p e) :
    (s.stampBond e bond denom burn).encTxs.count p = s.encTxs.count p := by
  have hget : s.encTxs.get? e.key = some e := (mem_entries_iff _ _).mp he
  exact count_put_replace (v := { e with bond := bond, bondDenom := denom, bondBurn := burn }) hget p
    hp

/-- A ciphertext comes or leaves, and its counters move with the count of the ciphertexts. -/
theorem CountersExact.moved {f : Option Nat → Option Nat} (h : s.CountersExact)
    (hmove : ∀ p : EncTx → Bool, countRecord (s'.encTxs.count p)
      = if p e then f (countRecord (s.encTxs.count p)) else countRecord (s.encTxs.count p))
    (hglobal : s'.globalEncCount = f s.globalEncCount)
    (hsubmitter : s'.submitterEncCounts = s.submitterEncCounts.update e.submitter f)
    (hepoch : s'.epochEncCounts = if 0 < e.epoch then s.epochEncCounts.update e.epoch f
      else s.epochEncCounts) : s'.CountersExact := by
  refine ⟨?_, fun a => ?_, fun ep hep => ?_⟩
  · rw [hglobal, h.global, hmove]
    rfl
  · rw [hsubmitter, lookup_update, hmove, h.submitter, h.submitter]
    by_cases hsub : a = e.submitter
    · simp [hsub]
    · simp [hsub, Ne.symm hsub]
  · rw [hepoch, hmove]
    by_cases hzero : 0 < e.epoch
    · rw [if_pos hzero, lookup_update, h.epoch _ hzero, h.epoch ep hep]
      by_cases heq : ep = e.epoch
      · simp [heq]
      · simp [heq, Ne.symm heq]
    · have hne : ¬ e.epoch = ep := by omega
      rw [if_neg hzero, h.epoch ep hep]
      simp [hne]

theorem CountersExact.imported (h : s.CountersExact)
    (hfresh : s.encTxs.get? e.key = none) (hroom : s.encTxs.entries.length + 1 < 2 ^ 64) :
    (s.importEncTx e).CountersExact :=
  h.moved (countRecord_put hfresh hroom) rfl rfl rfl

theorem length_put_fresh (hfresh : s.encTxs.get? e.key = none) :
    (s.encTxs.put e).entries.length = s.encTxs.entries.length + 1 := by
  have := count_put_fresh hfresh (fun _ => true)
  simpa [RecStore.count] using this

theorem CountersExact.released (h : s.CountersExact)
    (he : e ∈ s.encTxs.entries) : (s.withoutEncTx e).CountersExact :=
  h.moved (countRecord_del ((mem_entries_iff _ _).mp he)) rfl rfl rfl

theorem PoolInv.fresh (h : s.PoolInv X) (height : Nat) :
    s.encTxs.get? (key2 height s.encSeq) = none := by
  by_contra hne
  obtain ⟨e, he⟩ := Option.ne_none_iff_exists'.mp hne
  have hkey : e.key = key2 height s.encSeq := key_of_get? he
  have hlt := h.seq e (mem_of_get? he)
  rw [(key2_inj.mp hkey).2] at hlt
  exact Nat.lt_irrefl _ hlt

theorem PoolInv.of_pool (h : s.PoolInv X) (heq : s'.pool = s.pool) : s'.PoolInv X := by
  have hview : s.pool.PoolInv X :=
    ⟨h.params, h.seq, h.room, h.exact.global, h.exact.submitter, h.exact.epoch⟩
  rw [← heq] at hview
  exact ⟨hview.params, hview.seq, hview.room, hview.exact.global, hview.exact.submitter,
    hview.exact.epoch⟩

theorem PoolInv.withoutEncTx (h : s.PoolInv X)
    (he : e ∈ s.encTxs.entries) : (s.withoutEncTx e).PoolInv X := by
  have hget : s.encTxs.get? e.key = some e := (mem_entries_iff _ _).mp he
  refine ⟨h.params, fun x hx => ?_, ?_, h.exact.released he⟩
  · exact h.seq x ((mem_del_iff _ _ _).mp hx).1
  · have hlen := count_del hget (fun _ => true)
    simp only [RecStore.count, List.countP_true, if_true] at hlen
    have hlt : (s.encTxs.del e.key).entries.length < s.encTxs.entries.length :=
      Nat.lt_of_succ_le hlen.le
    exact hlt.trans h.room

/-- **Every write keeps the counters exact** as long as the sequence counter does not wrap. -/
theorem PoolInv.write (hw : ¬ w.seq) (hwrite : Write X ctx w s s')
    (h : s.PoolInv X) : s'.PoolInv X := by
  cases hwrite with
  | ledger hcore => exact h.of_pool (congrArg State.pool hcore :)
  | @submit submitter a nonce body epoch henabled hroom _ _ _ _ hseq =>
    have hnext : s.encSeq + 1 < 2 ^ 64 := hseq.resolve_left hw
    obtain ⟨hcap, hcapLe⟩ := Params.validate_maxInFlight h.params henabled
    have hlen : s.encTxs.entries.length + 1 < 2 ^ 64 := by
      have hlt := hroom hcap
      rw [getGlobalEncCount, h.exact.global, countRecord_getD, count_true] at hlt
      omega
    have hfresh := h.fresh (ctx.height + s.params.decryptDelay)
    have hexact := h.exact.imported (e := (s.submitEncTx submitter ctx.height
      s.params.decryptDelay a nonce body epoch).2) hfresh hlen
    refine ⟨h.params, ?_, ?_, hexact.global, hexact.submitter, hexact.epoch⟩
    · show ∀ e : EncTx, e ∈ _ → e.seq < wrap64 (s.encSeq + 1)
      rw [wrap64_of_lt hnext]
      exact forall_mem_put (Nat.lt_succ_self _) fun e he => Nat.lt_succ_of_lt (h.seq e he)
    · exact (length_put_fresh hfresh).trans_lt hlen
  | @stamp e bond denom he _ =>
    have hcount := s.count_stampBond he bond (bond * s.params.encSubmitBondBurnBps / 10000) denom
    refine ⟨h.params, forall_mem_put (h.seq e he) h.seq, ?_, ?_, fun a => ?_, fun ep hep => ?_⟩
    · rw [← count_true]
      exact (hcount _ rfl).trans_lt (s.count_true.symm ▸ h.room)
    · exact h.exact.global.trans (congrArg countRecord (hcount _ rfl).symm)
    · exact (h.exact.submitter a).trans (congrArg countRecord (hcount _ rfl).symm)
    · exact (h.exact.epoch ep hep).trans (congrArg countRecord (hcount _ rfl).symm)
  | release he =>
    exact (h.withoutEncTx he).of_pool (congrArg pool (maybePruneEpoch_inFlight _ _) :)
  | openRound hbase _ _ _ hopen =>
    exact h.of_pool (congrArg pool (openRound_inFlight (hbase.imp And.left And.left) hopen) :)
  | activate => exact h.of_pool (congrArg pool (maybePruneEpoch_inFlight _ _) :)
  | _ => exact h.of_pool rfl

theorem CountersExact.importedAll {es : List EncTx} (h : s.CountersExact)
    (hnodup : (es.map EncTx.key).Nodup) (hfresh : ∀ e ∈ es, s.encTxs.get? e.key = none)
    (hroom : s.encTxs.entries.length + es.length < 2 ^ 64) :
    (es.foldl importEncTx s).CountersExact
      ∧ (es.foldl importEncTx s).encTxs.entries.length
        = s.encTxs.entries.length + es.length := by
  induction es generalizing s with
  | nil => exact ⟨h, rfl⟩
  | cons e es ih =>
    obtain ⟨hnew, hnodup⟩ := List.nodup_cons.mp hnodup
    obtain ⟨he, hes⟩ := List.forall_mem_cons.mp hfresh
    have hlen : (s.importEncTx e).encTxs.entries.length = s.encTxs.entries.length + 1 :=
      length_put_fresh he
    rw [List.length_cons] at hroom
    have hnext := ih (h.imported he (by omega)) hnodup (fun x hx => ?_) (by omega)
    · refine ⟨hnext.1, hnext.2.trans ?_⟩
      rw [List.length_cons]
      omega
    · rw [State.importEncTx, get?_put, if_neg, hes x hx]
      exact fun heq => hnew (heq ▸ List.mem_map_of_mem hx)

theorem PoolInv.genesis {gs : GenesisState} (hlen : gs.encTxs.length < 2 ^ 64)
    (h : initGenesis X gs = .ok s) : s.PoolInv X := by
  have himp := initGenesis_imported h
  obtain ⟨hacc, rfl⟩ := initGenesis_spec h
  obtain ⟨c, g, sc, hrec⟩ := importRecords_eq gs
  have hempty : (importRecords gs).CountersExact := by
    rw [hrec]
    exact ⟨rfl, fun _ => rfl, fun _ _ => rfl⟩
  have hnone : (importRecords gs).encTxs = .empty := by rw [hrec]; rfl
  obtain ⟨hexact, hsize⟩ := hempty.importedAll hacc.txs_nodup
    (fun e _ => by rw [hnone]; rfl) (by rw [hnone]; simpa using hlen)
  refine ⟨himp.params ▸ hacc.params, fun e he => ?_, ?_, hexact⟩
  · rw [himp.encSeq]
    exact hacc.tx_seq e ((himp.tx e).mp he)
  · rw [hsize, hnone]
    simpa using hlen

end State

/-- **The in-flight counters are exact.** In every state reachable from an imported genesis while
the sequence counter does not wrap, the global counter is the number of stored ciphertexts, a
submitter's counter the number of its ciphertexts, an epoch's counter the number stamped with it,
and a counter record is absent exactly when its count is zero. -/
theorem inFlightCounters_exact {gs : GenesisState} (hlen : gs.encTxs.length < 2 ^ 64) {h : Nat}
    {c : Chain} (hreach : Chain.Reachable X SeqRoom gs h c) :
    (c.state.getGlobalEncCount = c.state.encTxs.entries.length
      ∧ (c.state.globalEncCount = none ↔ c.state.encTxs.entries.length = 0))
    ∧ (∀ a, c.state.getSubmitterEncCount a = c.state.encTxs.count (fun e => e.submitter = a)
      ∧ (c.state.submitterEncCounts.lookup a = none
        ↔ c.state.encTxs.count (fun e => e.submitter = a) = 0))
    ∧ ∀ ep, 0 < ep → c.state.getEpochEncCount ep = c.state.encTxs.count (fun e => e.epoch = ep)
      ∧ (c.state.epochEncCounts.lookup ep = none
        ↔ c.state.encTxs.count (fun e => e.epoch = ep) = 0) := by
  have hinv : c.state.PoolInv X := by
    refine hreach.by_writes (w := ⟨False, True, True⟩) (I := fun _ s => s.PoolInv X) trivial
      (.inr fun _ _ _ h => h) (.inl trivial) (fun s hs => .genesis hlen hs)
      (fun _ _ _ _ hs => hs) (fun ctx s s' hwrite hs => hs.write not_false hwrite)
      (fun _ s p hvalid _ hs => ?_) (fun ctx s s' msg _ hok hs => ?_)
    · exact ⟨hvalid, hs.seq, hs.room, hs.exact.global, hs.exact.submitter, hs.exact.epoch⟩
    · obtain ⟨-, -, -, rfl⟩ := State.submitDecryptionShare_spec hok
      exact hs.of_pool rfl
  have hglobal := hinv.exact.global
  rw [State.count_true] at hglobal
  refine ⟨⟨?_, ?_⟩, fun a => ⟨?_, ?_⟩, fun ep hep => ⟨?_, ?_⟩⟩
  · rw [State.getGlobalEncCount, hglobal, countRecord_getD]
  · rw [hglobal, countRecord_eq_none]
  · rw [State.getSubmitterEncCount, hinv.exact.submitter, countRecord_getD]
  · rw [hinv.exact.submitter, countRecord_eq_none]
  · rw [State.getEpochEncCount, hinv.exact.epoch ep hep, countRecord_getD]
  · rw [hinv.exact.epoch ep hep, countRecord_eq_none]

open Sample

/-- Two ciphertexts in flight after one was imported and one submitted. -/
theorem inFlightCounters_exact_submitted : ∃ c,
    Chain.Reachable primitives SeqRoom (genesis 7 [encTx 11 0]) 10 c
      ∧ c.state.encTxs.entries.length = 2 ∧ c.state.getGlobalEncCount = 2 := by
  obtain ⟨c, hreach, hlen⟩ : ∃ c, Chain.Reachable primitives SeqRoom
      (genesis 7 [encTx 11 0]) 10 c ∧ c.state.encTxs.entries.length = 2 :=
    Chain.exists_reachable
      [(block 10 (by decide), .submitEncrypted true submission)] (by decide +kernel)
  exact ⟨c, hreach, hlen, hlen ▸ (inFlightCounters_exact (by decide) hreach).1.1⟩

/-- The sequence counter wraps: the second submission reuses the key of an imported ciphertext,
which is overwritten while its references stay. -/
theorem inFlightCounters_wrap : ∃ c,
    Chain.Reachable primitives (fun _ _ _ => True)
      (genesis (2 ^ 64 - 1) [encTx 11 0]) 10 c
      ∧ c.state.encTxs.entries.length = 2 ∧ c.state.getGlobalEncCount = 3 :=
  Chain.exists_reachable
    [(block 10 (by decide), .submitEncrypted true submission),
     (block 10 (by decide), .submitEncrypted true submission)]
    (by decide +kernel)

/-! ## Counters that never fall short

Without the condition on the sequence counter the counters may exceed the ciphertexts they count,
since an overwritten ciphertext keeps its references, but they never fall short. -/

/-- The epoch counters cover the ciphertexts of their epochs and stay below the global one. -/
structure State.CountersCover (X : External) (s : State) : Prop where
  params : s.params.validate X = .ok ()
  cover : ∀ ep, 0 < ep → s.encTxs.count (fun e => e.epoch = ep) ≤ s.getEpochEncCount ep
  slack : ∀ ep, 0 < ep →
    s.getEpochEncCount ep + s.encTxs.count (fun e => e.epoch ≠ ep) ≤ s.getGlobalEncCount
  room : s.getGlobalEncCount < 2 ^ 64

namespace State

theorem PoolInv.cover (h : s.PoolInv X) : s.CountersCover X := by
  have hglobal : s.getGlobalEncCount = s.encTxs.entries.length := by
    rw [getGlobalEncCount, h.exact.global, countRecord_getD, count_true]
  have hepoch : ∀ ep, 0 < ep →
      s.getEpochEncCount ep = s.encTxs.count (fun e => e.epoch = ep) := fun ep hep => by
    rw [getEpochEncCount, h.exact.epoch ep hep, countRecord_getD]
  refine ⟨h.params, fun ep hep => (hepoch ep hep).ge, fun ep hep => ?_, hglobal ▸ h.room⟩
  rw [hepoch ep hep, hglobal]
  have hsplit := List.length_eq_countP_add_countP (fun e : EncTx => decide (e.epoch = ep))
    (l := s.encTxs.entries)
  simp only [RecStore.count]
  rw [hsplit]
  simp

theorem CountersCover.of_pool (h : s.CountersCover X) (heq : s'.pool = s.pool) :
    s'.CountersCover X := by
  have hview : s.pool.CountersCover X := ⟨h.params, h.cover, h.slack, h.room⟩
  rw [← heq] at hview
  exact ⟨hview.params, hview.cover, hview.slack, hview.room⟩

theorem getEpochEncCount_update {ep : Nat} {f : Option Nat → Option Nat}
    {counts : KVStore Nat Nat} {e : Nat}
    (hcounts : counts = if 0 < e then s.epochEncCounts.update e f else s.epochEncCounts)
    (hep : 0 < ep) : (counts.lookup ep).getD 0
      = if ep = e then (f (s.epochEncCounts.lookup ep)).getD 0 else s.getEpochEncCount ep := by
  subst hcounts
  by_cases he : 0 < e
  · rw [if_pos he, lookup_update]
    split_ifs with heq
    · rw [heq]
    · rfl
  · rw [if_neg he, if_neg (by omega)]
    rfl

theorem CountersCover.stored (h : s.CountersCover X)
    (hparams : s'.params = s.params) (htx : s'.encTxs = s.encTxs.put e)
    (hglobal : s'.globalEncCount = incCount s.globalEncCount)
    (hepoch : s'.epochEncCounts
      = if 0 < e.epoch then s.epochEncCounts.update e.epoch incCount else s.epochEncCounts)
    (hroom : s.getGlobalEncCount + 1 < 2 ^ 64) : s'.CountersCover X := by
  have hinc : s'.getGlobalEncCount = s.getGlobalEncCount + 1 := by
    unfold getGlobalEncCount at hroom ⊢
    rw [hglobal, incCount, wrap64_of_lt hroom]
    rfl
  -- an overwritten ciphertext only lowers what is counted
  have hput : ∀ p : EncTx → Bool,
      s'.encTxs.count p ≤ s.encTxs.count p + if p e then 1 else 0 := fun p => by
    rw [htx, count_put]
    exact Nat.add_le_add_right (count_del_le _ _ _) _
  have hcount : ∀ ep, 0 < ep →
      s'.getEpochEncCount ep = s.getEpochEncCount ep + if e.epoch = ep then 1 else 0 := by
    intro ep hep
    have hslack := h.slack ep hep
    rw [getEpochEncCount, getEpochEncCount_update hepoch hep]
    by_cases heq : ep = e.epoch
    · rw [if_pos heq, if_pos heq.symm, incCount, wrap64_of_lt]
      · rfl
      · show s.getEpochEncCount ep + 1 < 2 ^ 64
        omega
    · rw [if_neg heq, if_neg (Ne.symm heq)]
      rfl
  refine ⟨hparams ▸ h.params, fun ep hep => ?_, fun ep hep => ?_, by omega⟩
  · have hle := (hput fun x => x.epoch = ep).trans (Nat.add_le_add_right (h.cover ep hep) _)
    simpa [hcount ep hep] using hle
  · have hle := hput fun x => x.epoch ≠ ep
    have hslack := h.slack ep hep
    rw [hcount ep hep, hinc]
    simp only [decide_eq_true_eq] at hle
    split_ifs at hle ⊢ <;> omega

theorem CountersCover.withoutEncTx (h : s.CountersCover X)
    (he : e ∈ s.encTxs.entries) : (s.withoutEncTx e).CountersCover X := by
  have hget : s.encTxs.get? (key2 e.decryptHeight e.seq) = some e :=
    (mem_entries_iff _ _).mp he
  have hdel : ∀ p : EncTx → Bool,
      (s.withoutEncTx e).encTxs.count p + (if p e then 1 else 0) = s.encTxs.count p :=
    fun p => count_del hget p
  have hdec : ∀ c : Option Nat, (decCount c).getD 0 = c.getD 0 - 1 := fun c => by
    unfold decCount
    split_ifs with hle
    · exact (Nat.sub_eq_zero_of_le hle).symm
    · rfl
  have hglobal : (s.withoutEncTx e).getGlobalEncCount = s.getGlobalEncCount - 1 := hdec _
  have hcount : ∀ ep, 0 < ep → (s.withoutEncTx e).getEpochEncCount ep
      = s.getEpochEncCount ep - if e.epoch = ep then 1 else 0 := by
    intro ep hep
    refine (getEpochEncCount_update (s := s) (f := decCount) (e := e.epoch) rfl hep).trans ?_
    by_cases heq : ep = e.epoch
    · rw [if_pos heq, if_pos heq.symm, hdec]
      rfl
    · rw [if_neg heq, if_neg (Ne.symm heq), Nat.sub_zero]
  refine ⟨h.params, fun ep hep => ?_, fun ep hep => ?_, ?_⟩
  · have hone := hdel fun x => x.epoch = ep
    have hcover := h.cover ep hep
    rw [hcount ep hep]
    simp only [decide_eq_true_eq] at hone
    split_ifs at hone ⊢ <;> omega
  · have hone := hdel fun x => x.epoch ≠ ep
    have hmine := hdel fun x => x.epoch = ep
    have hcover := h.cover ep hep
    have hslack := h.slack ep hep
    rw [hcount ep hep, hglobal]
    simp only [decide_eq_true_eq] at hone hmine
    split_ifs at hone hmine ⊢ <;> omega
  · have := h.room
    omega

/-- **Every write keeps the counters above the ciphertexts they count.** -/
theorem CountersCover.write (hwrite : Write X ctx w s s')
    (h : s.CountersCover X) : s'.CountersCover X := by
  cases hwrite with
  | ledger hcore => exact h.of_pool (congrArg State.pool hcore :)
  | @submit submitter a nonce body epoch henabled hroom _ _ _ _ _ =>
    obtain ⟨hcap, hcapLe⟩ := Params.validate_maxInFlight h.params henabled
    have hlt := hroom hcap
    exact h.stored (e := (s.submitEncTx submitter ctx.height s.params.decryptDelay a nonce body
      epoch).2) rfl rfl rfl rfl (by omega)
  | @stamp e bond denom he _ =>
    have hcount := s.count_stampBond he bond (bond * s.params.encSubmitBondBurnBps / 10000) denom
    exact ⟨h.params, fun ep hep => (hcount _ rfl).le.trans (h.cover ep hep),
      fun ep hep => (Nat.add_le_add_left (hcount _ rfl).le _).trans (h.slack ep hep), h.room⟩
  | release he =>
    exact (h.withoutEncTx he).of_pool (congrArg pool (maybePruneEpoch_inFlight _ _) :)
  | openRound hbase _ _ _ hopen =>
    exact h.of_pool (congrArg pool (openRound_inFlight (hbase.imp And.left And.left) hopen) :)
  | activate => exact h.of_pool (congrArg pool (maybePruneEpoch_inFlight _ _) :)
  | _ => exact h.of_pool rfl

end State

/-! ## Shares and their heights -/

/-- No share is stored ahead of its decrypt height. -/
def State.SharesMature (h : Nat) (s : State) : Prop :=
  ∀ sh ∈ s.encShares.entries, sh.decryptHeight ≤ h

namespace State

theorem SharesMature.put {h : Nat} {sh : EncShare} (hs : s.SharesMature h)
    (hsh : sh.decryptHeight ≤ h) :
    SharesMature h { s with encShares := s.encShares.put sh } := forall_mem_put hsh hs

theorem SharesMature.of_inFlight {n : Nat} (h : s.SharesMature n)
    (heq : s'.inFlight = s.inFlight) : s'.SharesMature n := by
  have hview : s.inFlight.SharesMature n := h
  rwa [← heq] at hview

theorem SharesMature.write (hwrite : Write X ctx w s s')
    (h : s.SharesMature ctx.height) : s'.SharesMature ctx.height := by
  cases hwrite with
  | ledger hcore => exact h.of_inFlight (congrArg State.inFlight hcore :)
  | storeShare _ hmature => exact h.put hmature
  | @release e he =>
    have hleft : (s.withoutEncTx e).SharesMature ctx.height :=
      fun sh hsh => h sh ((mem_delWhere_iff _ _ _).mp hsh).1
    exact hleft.of_inFlight (maybePruneEpoch_inFlight _ _)
  | openRound hbase _ _ _ hopen =>
    exact h.of_inFlight (openRound_inFlight (hbase.imp And.left And.left) hopen)
  | activate => exact h.of_inFlight (maybePruneEpoch_inFlight _ _)
  | _ => exact h

end State

/-! ## Shares and their ciphertexts -/

/-- Every share and every rejected-share marker belongs to a stored ciphertext. -/
structure State.NoOrphans (s : State) : Prop where
  share : ∀ sh ∈ s.encShares.entries, s.encTxs.has (key2 sh.decryptHeight sh.seq) = true
  marker : ∀ height seq index, (s.rejectedShares.lookup (key3 height seq index)).isSome = true →
    s.encTxs.has (key2 height seq) = true

namespace State

theorem NoOrphans.of_inFlight (h : s.NoOrphans) (heq : s'.inFlight = s.inFlight) :
    s'.NoOrphans := by
  have hview : s.inFlight.NoOrphans := ⟨h.share, h.marker⟩
  rw [← heq] at hview
  exact ⟨hview.share, hview.marker⟩

/-- Storing a ciphertext orphans nothing. -/
theorem NoOrphans.putTx (h : s.NoOrphans)
    (htx : s'.encTxs = s.encTxs.put e) (hsh : s'.encShares = s.encShares)
    (hrej : s'.rejectedShares = s.rejectedShares) : s'.NoOrphans := by
  constructor
  · rw [htx, hsh]
    exact fun sh hmem => (has_put _ _ _).mpr (.inr (h.share sh hmem))
  · rw [htx, hrej]
    exact fun height seq index hsome => (has_put _ _ _).mpr
      (.inr (h.marker height seq index hsome))

theorem NoOrphans.putShare {sh : EncShare} (h : s.NoOrphans)
    (hstored : s.encTxs.has (key2 sh.decryptHeight sh.seq) = true) :
    NoOrphans { s with encShares := s.encShares.put sh } :=
  ⟨forall_mem_put hstored h.share, h.marker⟩

theorem NoOrphans.withoutEncTx (h : s.NoOrphans) (e : EncTx) : (s.withoutEncTx e).NoOrphans := by
  constructor
  · intro sh hsh
    obtain ⟨hmem, hother⟩ := (mem_delWhere_iff _ _ _).mp hsh
    refine (has_del _ _ _).mpr ⟨fun heq => ?_, h.share sh hmem⟩
    have := (shareOf_key3 e.decryptHeight e.seq sh.decryptHeight sh.seq sh.index).mpr
      (key2_inj.mp heq)
    exact absurd (hother.symm.trans this) (by decide)
  · intro height seq index hsome
    simp only [State.withoutEncTx] at hsome
    rw [lookup_delWhere] at hsome
    split_ifs at hsome with hof
    · cases hsome
    · refine (has_del _ _ _).mpr ⟨fun heq => hof ?_, h.marker height seq index hsome⟩
      exact (shareOf_key3 _ _ _ _ _).mpr (key2_inj.mp heq)

/-- **Every write keeps shares attached to their ciphertexts.** -/
theorem NoOrphans.write (hwrite : Write X ctx w s s') (h : s.NoOrphans) : s'.NoOrphans := by
  cases hwrite with
  | ledger hcore => exact h.of_inFlight (congrArg State.inFlight hcore :)
  | submit => exact h.putTx rfl rfl rfl
  | stamp => exact h.putTx rfl rfl rfl
  | @release e he => exact (h.withoutEncTx e).of_inFlight (maybePruneEpoch_inFlight _ _)
  | storeShare hclass =>
    exact h.putShare (has_iff.mpr ⟨_, (classifyDecryptShare_spec hclass).1⟩)
  | @rejectShare operator sh member e hclass =>
    refine ⟨h.share, fun height seq index hsome => ?_⟩
    simp only at hsome
    rw [lookup_assign] at hsome
    split_ifs at hsome with heq
    · obtain ⟨rfl, rfl, -⟩ := key3_inj.mp heq
      exact has_iff.mpr ⟨_, (classifyDecryptShare_spec hclass).1⟩
    · exact h.marker height seq index hsome
  | openRound hbase _ _ _ hopen =>
    exact h.of_inFlight (openRound_inFlight (hbase.imp And.left And.left) hopen)
  | activate => exact h.of_inFlight (maybePruneEpoch_inFlight _ _)
  | _ => exact h.of_inFlight rfl

theorem NoOrphans.genesis {gs : GenesisState} (h : initGenesis X gs = .ok s) : s.NoOrphans := by
  have himp := initGenesis_imported h
  constructor
  · intro sh hsh
    obtain ⟨sh', hsh', rfl⟩ := himp.share sh hsh
    obtain ⟨e, he, hkey⟩ := List.mem_map.mp (himp.accepted.share_tx sh' hsh')
    have hhas : s.encTxs.has e.key = true := has_of_mem ((himp.tx e).mpr he)
    rwa [hkey] at hhas
  · intro height seq index hsome
    rw [himp.rejectedShares] at hsome
    cases hsome

end State

/-- A legacy share is only submitted for a stored ciphertext while the DKG is off; with the DKG on
the handler checks it. -/
def LegacyShareStored : Allow := fun s _ a =>
  match a with
  | .submitDecryptionShare msg =>
    s.params.dkgEnabled = false → s.encTxs.has (key2 msg.decryptHeight msg.seq) = true
  | _ => True

instance (s : State) (ctx : Ctx) (a : Action) : Decidable (LegacyShareStored s ctx a) := by
  apply @Action.casesOn (fun a => Decidable (LegacyShareStored s ctx a)) a <;> intros <;>
    unfold LegacyShareStored <;> infer_instance

/-- **No orphan shares.** In every state reachable by actions whose legacy shares name a stored
ciphertext, every share and every rejected-share marker refers to a stored ciphertext, and releasing
any ciphertext leaves none of its shares or markers behind. -/
theorem shares_attached {gs : GenesisState} {h : Nat} {c : Chain}
    (hreach : Chain.Reachable X LegacyShareStored gs h c) :
    (∀ sh ∈ c.state.encShares.entries, c.state.encTxs.has (key2 sh.decryptHeight sh.seq) = true)
    ∧ (∀ height seq index,
      (c.state.rejectedShares.lookup (key3 height seq index)).isSome = true →
        c.state.encTxs.has (key2 height seq) = true)
    ∧ ∀ e, (∀ sh ∈ (c.state.releaseEncTx X e).encShares.entries,
        ¬ (sh.decryptHeight = e.decryptHeight ∧ sh.seq = e.seq))
      ∧ ∀ index, (c.state.releaseEncTx X e).rejectedShares.lookup
        (key3 e.decryptHeight e.seq index) = none := by
  have hinv : c.state.NoOrphans := by
    refine hreach.by_writes (w := ⟨True, True, True⟩) (I := fun _ s => s.NoOrphans) trivial
      (.inl trivial) (.inl trivial) (fun s hs => .genesis hs) (fun _ _ _ _ hs => hs)
      (fun ctx s s' hwrite hs => hs.write hwrite)
      (fun _ s p _ _ hs => ⟨hs.share, hs.marker⟩) (fun ctx s s' msg hallow hok hs => ?_)
    obtain ⟨-, -, hon, rfl⟩ := State.submitDecryptionShare_spec hok
    refine hs.putShare ?_
    cases hdkg : s.params.dkgEnabled with
    | true => exact hon hdkg
    | false => exact hallow hdkg
  refine ⟨hinv.share, hinv.marker, fun e => ⟨fun sh hsh hof => ?_, fun index => ?_⟩⟩
  · rw [(State.releaseEncTx_spec _ _).2.1] at hsh
    have hkept := ((mem_delWhere_iff _ _ _).mp hsh).2
    have hsame := (shareOf_key3 e.decryptHeight e.seq sh.decryptHeight sh.seq sh.index).mpr hof
    exact absurd (hkept.symm.trans hsame) (by decide)
  · rw [(State.releaseEncTx_spec _ _).2.2, lookup_delWhere, if_pos]
    exact (shareOf_key3 _ _ _ _ _).mpr ⟨rfl, rfl⟩

/-- A legacy share of an imported ciphertext is stored with it. -/
theorem shares_attached_legacy : ∃ c,
    Chain.Reachable primitives LegacyShareStored (genesis 1 [encTx 11 0]) 10 c
      ∧ (share 0).share ∈ c.state.encShares.entries
      ∧ c.state.encTxs.has (key2 11 0) = true := by
  obtain ⟨c, hreach, hstored⟩ : ∃ c, Chain.Reachable primitives LegacyShareStored
      (genesis 1 [encTx 11 0]) 10 c
        ∧ (share 0).share ∈ c.state.encShares.entries :=
    Chain.exists_reachable [(block 11 (by decide), .submitDecryptionShare (share 0))]
      (by decide +kernel)
  exact ⟨c, hreach, hstored, (shares_attached hreach).1 _ hstored⟩

/-- With the DKG off, a keyper's share of a ciphertext that never existed is stored. -/
theorem shares_orphan_legacy : ∃ c,
    Chain.Reachable primitives (fun _ _ _ => True) (genesis 1 []) 10 c
      ∧ ∃ sh ∈ c.state.encShares.entries,
        c.state.encTxs.has (key2 sh.decryptHeight sh.seq) = false :=
  Chain.exists_reachable [(block 11 (by decide), .submitDecryptionShare (share 0))]
    (by decide +kernel)

end EncMempool
