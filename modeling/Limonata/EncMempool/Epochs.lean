import Limonata.EncMempool.InFlight

/-!
# x/encmempool — the lifetime of an epoch's records

Rounds, keys, dealings and caches are deleted by four routines: the shedding of a round's dealings,
the purge of a failed round, and the prune of an epoch that has just lost its last ciphertext or its
serving role. Two properties bound them from both sides. An epoch that serves or that a ciphertext
still needs keeps its round, its key and the dealings of its qualified dealers; and nothing is kept
for an epoch that is neither current, nor serving, nor needed.

Both rest on the epochs being opened in increasing order: a round is opened at an epoch above every
stored one. An imported genesis need not be of that form, so the statements ask for it.
-/

namespace EncMempool

open Machine Check RecStore KVStore

variable {X : External} {ctx : Ctx} {w : Wraps}

namespace State

variable {s s' : State} {ep : Nat}

/-! ## Pruning -/

theorem CountersCover.not_mem (h : s.CountersCover X) (hep : ep ≠ 0)
    (hcount : s.getEpochEncCount ep = 0) : ∀ tx ∈ s.encTxs.entries, tx.epoch ≠ ep := by
  intro tx htx heq
  have hpos : 0 < s.encTxs.count (fun e => e.epoch = ep) :=
    count_pos_iff.mpr ⟨tx, htx, by simpa using heq⟩
  have := h.cover ep (Nat.pos_of_ne_zero hep)
  omega

/-! ## Key material -/

/-- The epoch serves, or a stored ciphertext is stamped with it. -/
def Needed (s : State) (ep : Nat) : Prop :=
  ep ≠ 0 ∧ (ep = s.activeEpoch ∨ ∃ tx ∈ s.encTxs.entries, tx.epoch = ep)

section Needed

variable {s s' : State} {ep : Nat}

theorem CountersCover.needed_ne {drained : Nat} (h : s.CountersCover X) (hn : s.Needed ep)
    (hserves : drained ≠ s.activeEpoch) (hcount : s.getEpochEncCount drained = 0) : ep ≠ drained := by
  rintro rfl
  obtain ⟨hzero, hactive | ⟨tx, htx, hep⟩⟩ := hn
  · exact hserves hactive
  · exact h.not_mem hzero hcount tx htx hep

/-- A ciphertext makes an epoch needed only if the epoch is needed already. -/
theorem Needed.of_put {e : EncTx} (hn : s'.Needed ep) (hactive : s'.activeEpoch = s.activeEpoch)
    (htxs : s'.encTxs = s.encTxs.put e) (he : e.epoch ≠ 0 → s.Needed e.epoch) : s.Needed ep := by
  obtain ⟨hzero, hserves | ⟨tx, htx, rfl⟩⟩ := hn
  · exact ⟨hzero, .inl (hserves.trans hactive)⟩
  · rw [htxs] at htx
    cases (mem_put_iff _ _ _).mp htx with
    | inl heq => exact heq ▸ he (heq ▸ hzero)
    | inr hold => exact ⟨hzero, .inr ⟨tx, hold.1, rfl⟩⟩

theorem Needed.of_core (hn : s'.Needed ep) (hcore : s'.core = s.core) : s.Needed ep := by
  cases s
  cases s'
  cases hcore
  exact hn

theorem Needed.of_withoutEncTx {e : EncTx} (hn : (s.withoutEncTx e).Needed ep) : s.Needed ep :=
  ⟨hn.1, hn.2.imp_right fun ⟨tx, htx, hep⟩ => ⟨tx, ((mem_del_iff _ _ _).mp htx).1, hep⟩⟩

end Needed

/-- The epoch has an active round, a key of the same threshold and the dealings of every qualified
dealer. -/
def HasMaterial (s : State) (ep : Nat) : Prop :=
  ∃ round ak, s.rounds.get? ep = some round ∧ round.status = .active
    ∧ s.activeKeys.get? ep = some ak ∧ ak.threshold = round.threshold
    ∧ ∀ q ∈ ak.qual, (s.dealings.get? (key2 ep q)).isSome = true

theorem HasMaterial.keep (h : s.HasMaterial ep)
    (hround : s'.rounds.get? ep = s.rounds.get? ep)
    (hkey : s'.activeKeys.get? ep = s.activeKeys.get? ep)
    (hdealing : ∀ q, (s.dealings.get? (key2 ep q)).isSome = true →
      (s'.dealings.get? (key2 ep q)).isSome = true) : s'.HasMaterial ep := by
  obtain ⟨round, ak, hr, hactive, hk, hthreshold, hqual⟩ := h
  exact ⟨round, ak, hround.trans hr, hactive, hkey.trans hk, hthreshold,
    fun q hq => hdealing q (hqual q hq)⟩

/-- The invariant: every needed epoch has its material, and epochs are opened in order. -/
structure KeyMaterial (X : External) (s : State) : Prop where
  counts : s.CountersCover X
  retain : s.params.dkgRetainActiveDealings = true
  rounds_le : ∀ ep r, s.rounds.get? ep = some r → ep ≤ s.currentEpoch
  material : ∀ ep, s.Needed ep → s.HasMaterial ep

/-- A needed epoch is not above the current one, and if it is the current one its round is
active. -/
theorem KeyMaterial.needed_le (h : s.KeyMaterial X) (hn : s.Needed ep) :
    ep ≤ s.currentEpoch ∧ ∀ r, s.rounds.get? ep = some r → r.status = .active := by
  obtain ⟨round, ak, hr, hactive, -⟩ := h.material ep hn
  refine ⟨h.rounds_le ep round hr, fun r hr' => ?_⟩
  rw [hr] at hr'
  cases hr'
  exact hactive

theorem KeyMaterial.maybePrune (h : s.KeyMaterial X) (ep : Nat) :
    (s.maybePruneEpoch ep).KeyMaterial X := by
  obtain ⟨heq, -⟩ | ⟨hactive, -, hcount, -, heq⟩ := s.maybePruneEpoch_cases ep
  · rw [heq]
    exact h
  rw [heq]
  refine ⟨h.counts.of_pool rfl, h.retain, fun e r hr => ?_, fun e hn => ?_⟩
  · exact h.rounds_le e r (get?_of_del hr)
  · have hne : e ≠ ep := h.counts.needed_ne hn hactive hcount
    refine (h.material e hn).keep ?_ ?_ fun q hq => ?_
    · exact get?_del_of_ne hne
    · exact get?_del_of_ne hne
    · simpa [get?_delWhere, hne] using hq

theorem finalizeResult_qual {round : DkgRound} {res : PublicResult}
    (h : s.finalizeResult X round = .ok res) :
    ∀ q ∈ res.qual, (s.dealings.get? (key2 round.epoch q)).isSome = true := by
  intro q hq
  obtain ⟨hqual, -⟩ := finalizePublicWeighted_spec h
  rw [hqual, List.mem_filter, Bool.and_eq_true] at hq
  obtain ⟨pts, hpts⟩ := Option.isSome_iff_exists.mp hq.2.1
  obtain ⟨pd, hpd, rfl, -⟩ := exists_of_dealingPoints hpts
  obtain ⟨d, hd, rfl⟩ := List.mem_map.mp hpd
  obtain ⟨hmem, hepoch⟩ := List.mem_filter.mp hd
  have hget : s.dealings.get? d.key = some d := (mem_entries_iff _ _).mp hmem
  rw [← of_decide_eq_true hepoch]
  exact Option.isSome_iff_exists.mpr ⟨d, hget⟩

/-- The material of a needed epoch does not change where nothing of it is written. -/
theorem KeyMaterial.congr (h : s.KeyMaterial X) (hcounts : s'.CountersCover X)
    (hretain : s'.params = s.params) (hmaterial : s'.material = s.material)
    (hneeded : ∀ ep, s'.Needed ep → s.Needed ep) : s'.KeyMaterial X := by
  cases s
  cases s'
  cases hmaterial
  exact ⟨hcounts, hretain ▸ h.retain, h.rounds_le, fun ep hn =>
    (h.material ep (hneeded ep hn)).keep rfl rfl fun _ hq => hq⟩

/-- **Every write keeps the material of every needed epoch**, as long as the epoch counter does not
wrap. -/
theorem KeyMaterial.write (hw : ¬ w.epoch) (hwrite : Write X ctx w s s') (h : s.KeyMaterial X) :
    s'.KeyMaterial X := by
  have hcounts := h.counts.write hwrite
  cases hwrite with
  | ledger hcore =>
    exact h.congr hcounts (congrArg State.params hcore :) (congrArg State.material hcore :) fun ep hn =>
      hn.of_core hcore
  | submit _ _ _ _ _ hepoch =>
    -- a new ciphertext is stamped with the serving epoch
    exact h.congr hcounts rfl rfl fun ep hn =>
      hn.of_put rfl rfl fun hne => ⟨hne, .inl (hepoch.resolve_left hne)⟩
  | @stamp e bond denom he _ =>
    exact h.congr hcounts rfl rfl fun ep hn =>
      hn.of_put rfl rfl fun hne => ⟨hne, .inr ⟨e, he, rfl⟩⟩
  | @release e he =>
    exact KeyMaterial.maybePrune (h.congr (h.counts.withoutEncTx he) rfl rfl
      fun ep hn => hn.of_withoutEncTx) e.epoch
  | purge hlast hactive hdrained =>
    -- only a drained epoch that does not serve loses its dealings
    obtain ⟨hserves, hcount⟩ := hdrained h.retain
    refine ⟨hcounts, h.retain, h.rounds_le, fun ep hn => ?_⟩
    have hne : ep ≠ s.currentEpoch := h.counts.needed_ne hn hserves hcount
    refine (h.material ep hn).keep rfl rfl fun q hq => ?_
    simpa [purgeDealings, get?_delWhere, hne] using hq
  | openRound hbase hmembers _ hnext hopen =>
    obtain ⟨r, hep, -, -, -, -, -, rfl⟩ := openRound_spec hopen
    have hroom := hnext.resolve_left hw
    rw [wrap64_of_lt hroom] at hep hcounts ⊢
    obtain ⟨rfl, -⟩ | ⟨rfl, last, hlast, hnotActive, -⟩ := hbase
    · refine ⟨hcounts, h.retain, forall_get?_put hep.le fun ep x hx =>
        Nat.le_succ_of_le (h.rounds_le ep x hx), fun ep hn => ?_⟩
      have hle := (h.needed_le hn).1
      exact (h.material ep hn).keep (get?_put_of_ne (by omega)) rfl fun _ hq => hq
    · -- the purged round was not active, so its epoch is not needed
      obtain ⟨hget, hcur, -⟩ := get?_of_lastRound hlast
      rw [hcur] at hget
      refine ⟨hcounts, h.retain, forall_get?_put hep.le fun ep x hx =>
        Nat.le_succ_of_le (h.rounds_le ep x (get?_of_del hx)), fun ep hn => ?_⟩
      obtain ⟨hle, hstatus⟩ := h.needed_le hn
      have hne : ep ≠ s.currentEpoch := by
        rintro rfl
        exact hnotActive (hstatus last hget)
      refine (h.material ep hn).keep ?_ rfl fun q hq => ?_
      · exact (get?_put_of_ne (by omega)).trans (get?_del_of_ne hne)
      · simpa [purgeFailedRound, purgeDealings, get?_delWhere, hne] using hq
  | @failRound round hlast hopen =>
    obtain ⟨hget, hcur, -⟩ := get?_of_lastRound hlast
    refine ⟨hcounts, h.retain, forall_get?_put hcur.le h.rounds_le, fun ep hn => ?_⟩
    have hne : ep ≠ round.epoch := by
      rintro rfl
      have hactive := (h.needed_le hn).2 round hget
      exact absurd (hopen.symm.trans hactive) (by decide)
    exact (h.material ep hn).keep (get?_put_of_ne hne) rfl fun _ hq => hq
  | @activate round res sk cu hlast hopen hres _ _ _ =>
    obtain ⟨hget, hcur, -⟩ := get?_of_lastRound hlast
    apply KeyMaterial.maybePrune
    refine ⟨h.counts.of_pool rfl, h.retain, forall_get?_put hcur.le h.rounds_le, fun ep hn => ?_⟩
    by_cases hep : ep = round.epoch
    · subst hep
      exact ⟨{ round with status := .active }, installedKey round res,
        get?_put_self s.rounds _, rfl, get?_put_self s.activeKeys _, rfl,
        finalizeResult_qual hres⟩
    · obtain ⟨hne, heq | htx⟩ := hn
      · exact absurd heq hep
      · refine (h.material ep ⟨hne, .inr htx⟩).keep ?_ ?_ fun _ hq => hq
        · exact get?_put_of_ne hep
        · exact get?_put_of_ne hep
  | @deal round d hround hopen _ _ =>
    refine ⟨hcounts, h.retain, h.rounds_le, fun ep hn => (h.material ep hn).keep rfl rfl ?_⟩
    intro q hq
    simp only [get?_put]
    split_ifs
    · rfl
    · exact hq
  | _ => exact h.congr hcounts rfl rfl fun _ hn => hn

end State

/-- A genesis from which key material is kept: it has the material that the import does not check,
and no round above the current epoch. -/
structure GenesisState.KeepsMaterial (gs : GenesisState) : Prop where
  retain : gs.params.dkgRetainActiveDealings = true
  ordered : ∀ r ∈ gs.dkgRounds, r.epoch ≤ gs.currentEpoch
  active : ∀ e ∈ gs.encTxs, ∀ r ∈ gs.dkgRounds, r.epoch = e.epoch → r.status = .active
  dealt : ∀ ak ∈ gs.activeKeys,
    (ak.epoch = gs.activeEpoch ∨ ∃ e ∈ gs.encTxs, e.epoch = ak.epoch) →
    ∀ q ∈ ak.qual, ∃ d ∈ gs.dealings, d.epoch = ak.epoch ∧ d.dealerIndex = q

namespace State

theorem KeyMaterial.genesis {gs : GenesisState} {s : State} (hlen : gs.encTxs.length < 2 ^ 64)
    (hgs : gs.KeepsMaterial) (h : initGenesis X gs = .ok s) : s.KeyMaterial X := by
  have hpool := PoolInv.genesis hlen h
  have himp := initGenesis_imported h
  refine ⟨hpool.cover, himp.params ▸ hgs.retain, fun ep r hr => ?_, fun ep hn => ?_⟩
  · rw [himp.round] at hr
    obtain ⟨hmem, rfl⟩ := GenesisState.roundOf_spec hr
    exact himp.current ▸ hgs.ordered r hmem
  · -- the import checks the rounds and keys of needed epochs, the genesis adds status and dealings
    obtain ⟨ak, hak, hneed⟩ : ∃ ak, gs.activeKeyOf ep = some ak
        ∧ (ep = gs.activeEpoch ∨ ∃ e ∈ gs.encTxs, e.epoch = ep) := by
      obtain ⟨hne, hserves | ⟨tx, htx, rfl⟩⟩ := hn
      · rw [himp.active] at hserves
        subst hserves
        obtain ⟨-, ak, -, -, hak⟩ := himp.accepted.active (Nat.pos_of_ne_zero hne)
        exact ⟨ak, hak, .inl rfl⟩
      · have hmem := (himp.tx tx).mp htx
        obtain ⟨ak, hak⟩ := himp.accepted.tx_key hmem (Nat.pos_of_ne_zero hne)
        exact ⟨ak, hak, .inr ⟨tx, hmem, rfl⟩⟩
    obtain ⟨hakMem, hakEpoch⟩ := GenesisState.activeKeyOf_spec hak
    obtain ⟨r, hr, hthreshold⟩ := himp.accepted.key_round hak
    obtain ⟨hrMem, hrEpoch⟩ := GenesisState.roundOf_spec hr
    refine ⟨r, ak, (himp.round ep).trans hr, ?_, (himp.key ep).trans hak, hthreshold,
      fun q hq => ?_⟩
    · obtain hserves | ⟨e, he, heq⟩ := hneed
      · subst hserves
        obtain ⟨r', -, hr', hstatus, -⟩ := himp.accepted.active (Nat.pos_of_ne_zero hn.1)
        cases hr.symm.trans hr'
        exact hstatus
      · exact hgs.active e he r hrMem (hrEpoch.trans heq.symm)
    · obtain ⟨d, hd, hepoch, hindex⟩ := hgs.dealt ak hakMem (by rwa [hakEpoch]) q hq
      have hhas := himp.dealt d hd
      rwa [Dealing.key, hepoch, hindex, hakEpoch] at hhas

end State

/-- **No ciphertext loses its key material.** From a genesis that retains dealings, has the material
of its own needed epochs and no round above the current epoch, in every state reached while the
epoch counter does not wrap: the serving epoch and the epoch of every stored ciphertext have an
active round, a key of the same threshold and a dealing of every qualified dealer. -/
theorem keyMaterial_kept {gs : GenesisState} (hlen : gs.encTxs.length < 2 ^ 64)
    (hgs : gs.KeepsMaterial) {h : Nat} {c : Chain} (hreach : Chain.Reachable X EpochRoom gs h c)
    {ep : Nat} (hep : ep ≠ 0)
    (hneed : ep = c.state.activeEpoch ∨ ∃ tx ∈ c.state.encTxs.entries, tx.epoch = ep) :
    ∃ round ak, c.state.rounds.get? ep = some round ∧ round.status = .active
      ∧ c.state.activeKeys.get? ep = some ak ∧ ak.threshold = round.threshold
      ∧ ∀ q ∈ ak.qual, ∃ d, c.state.dealings.get? (key2 ep q) = some d := by
  have hinv : c.state.KeyMaterial X := by
    refine hreach.by_writes (w := ⟨True, False, True⟩) (I := fun _ s => s.KeyMaterial X) trivial
      (.inl trivial) (.inr fun _ _ _ hallow => hallow) (fun s hs => .genesis hlen hgs hs)
      (fun _ _ _ _ hs => hs) (fun ctx s s' hwrite hs => hs.write id hwrite)
      (fun _ s p hvalid hretain hs => ?_) (fun ctx s s' msg _ hok hs => ?_)
    · exact ⟨⟨hvalid, hs.counts.cover, hs.counts.slack, hs.counts.room⟩, hretain hs.retain,
        hs.rounds_le, hs.material⟩
    · obtain ⟨-, -, -, rfl⟩ := State.submitDecryptionShare_spec hok
      exact hs.congr (hs.counts.of_pool rfl) rfl rfl fun _ hn => hn
  obtain ⟨round, ak, hround, hactive, hak, hthreshold, hqual⟩ := hinv.material ep ⟨hep, hneed⟩
  exact ⟨round, ak, hround, hactive, hak, hthreshold,
    fun q hq => Option.isSome_iff_exists.mp (hqual q hq)⟩

open Sample

/-- The serving epoch of the sample committee keeps its material over an end-block. -/
theorem keyMaterial_kept_serving : ∃ c,
    Chain.Reachable dkgPrimitives EpochRoom
      (dkgGenesis 1 1 1 [round 1 .active] [key 1] [dealing 1]) 9 c
    ∧ c.state.activeEpoch = 1 ∧ ∃ round ak, c.state.rounds.get? 1 = some round
      ∧ round.status = .active ∧ c.state.activeKeys.get? 1 = some ak
      ∧ ak.threshold = round.threshold
      ∧ ∀ q ∈ ak.qual, ∃ d, c.state.dealings.get? (key2 1 q) = some d := by
  obtain ⟨c, hreach, hactive⟩ : ∃ c, Chain.Reachable dkgPrimitives EpochRoom
      (dkgGenesis 1 1 1 [round 1 .active] [key 1] [dealing 1]) 9 c
      ∧ c.state.activeEpoch = 1 :=
    Chain.exists_reachable [(block 10 (by decide), .endBlockDKG)] (by decide +kernel)
  refine ⟨c, hreach, hactive, keyMaterial_kept (by decide) ?_ hreach (by decide)
    (.inl hactive.symm)⟩
  exact ⟨rfl, by decide +kernel, by decide +kernel, by decide +kernel⟩

/-- An accepted genesis with retained dealings may lack a dealing of its serving key from the start;
and one whose serving epoch is above the current one loses its active round when the epochs opened
next reach it. -/
theorem keyMaterial_lost :
    (∃ c, Chain.Reachable dkgPrimitives (fun _ _ _ => True)
        (dkgGenesis 1 1 1 [round 1 .active] [key 1] []) 9 c
      ∧ c.state.params.dkgRetainActiveDealings = true ∧ c.state.activeEpoch = 1
      ∧ c.state.activeKeys.get? 1 = some (key 1)
      ∧ c.state.dealings.get? (key2 1 1) = none)
    ∧ ∃ c, Chain.Reachable dkgPrimitives (fun _ _ _ => True)
        (dkgGenesis 1 2 2 [round 1 .failed, round 2 .active] [key 2]
          [dealing 2]) 9 c
      ∧ c.state.activeEpoch = 2
      ∧ (c.state.rounds.get? 2).map DkgRound.status = some .isOpen :=
  ⟨Chain.exists_reachable [] (by decide +kernel),
   Chain.exists_reachable [(block 10 (by decide), .endBlockDKG)] (by decide +kernel)⟩

/-! ## Bounded epochs -/

namespace State

variable {s s' : State} {ep a : Nat}

/-- The current epoch, the serving one, and those of the stored ciphertexts. -/
def Live (s : State) (ep : Nat) : Prop :=
  ep = s.currentEpoch ∨ ep = s.activeEpoch ∨ ∃ tx ∈ s.encTxs.entries, tx.epoch = ep

/-- A record derived from the key of an epoch is stored. -/
inductive HasCache (s : State) (ep : Nat) : Prop
  | shareKey (i : Nat) (h : (s.shareKeys.lookup (key2 ep i)).isSome = true)
  | cursor (h : (s.shareKeyCursors.lookup ep).isSome = true)
  | streak (h : (s.strandStreaks.lookup ep).isSome = true)

/-- A record of the round of an epoch is stored. -/
inductive HasRound (s : State) (ep : Nat) : Prop
  | round (h : (s.rounds.get? ep).isSome = true)
  | dealing (i : Nat) (h : (s.dealings.get? (key2 ep i)).isSome = true)
  | complaint (i j : Nat) (h : (s.complaints.get? (key3 ep i j)).isSome = true)
  | rejected (i j k : Nat) (h : (s.rejectedComplaints.lookup (key4 ep i j k)).isSome = true)

theorem HasCache.mono (h : s'.HasCache ep)
    (hsk : ∀ i, (s'.shareKeys.lookup (key2 ep i)).isSome = true →
      (s.shareKeys.lookup (key2 ep i)).isSome = true)
    (hcu : (s'.shareKeyCursors.lookup ep).isSome = true →
      (s.shareKeyCursors.lookup ep).isSome = true)
    (hst : (s'.strandStreaks.lookup ep).isSome = true →
      (s.strandStreaks.lookup ep).isSome = true) : s.HasCache ep := by
  cases h with
  | shareKey i h => exact .shareKey i (hsk i h)
  | cursor h => exact .cursor (hcu h)
  | streak h => exact .streak (hst h)

theorem HasRound.mono (h : s'.HasRound ep)
    (hr : (s'.rounds.get? ep).isSome = true → (s.rounds.get? ep).isSome = true)
    (hd : ∀ i, (s'.dealings.get? (key2 ep i)).isSome = true →
      (s.dealings.get? (key2 ep i)).isSome = true)
    (hc : ∀ i j, (s'.complaints.get? (key3 ep i j)).isSome = true →
      (s.complaints.get? (key3 ep i j)).isSome = true)
    (hrej : ∀ i j k, (s'.rejectedComplaints.lookup (key4 ep i j k)).isSome = true →
      (s.rejectedComplaints.lookup (key4 ep i j k)).isSome = true) : s.HasRound ep := by
  cases h with
  | round h => exact .round (hr h)
  | dealing i h => exact .dealing i (hd i h)
  | complaint i j h => exact .complaint i j (hc i j h)
  | rejected i j k h => exact .rejected i j k (hrej i j k h)

theorem HasRound.of_purge (h : (s.purgeDealings a).HasRound ep) : s.HasRound ep := by
  refine h.mono id ?_ ?_ ?_
  · intro i
    simp only [purgeDealings, get?_delWhere]
    split_ifs <;> simp
  · intro i j
    simp only [purgeDealings, get?_delWhere]
    split_ifs <;> simp
  · intro i j k
    simp only [purgeDealings, lookup_delWhere]
    split_ifs <;> simp

/-- The invariant of the epoch pointers and the records of each epoch. `pending` is an epoch about
to be considered for pruning; zero is none. -/
structure BoundedBut (X : External) (pending : Nat) (s : State) : Prop where
  pool : s.PoolInv X
  rounds_le : ∀ ep r, s.rounds.get? ep = some r → ep ≤ s.currentEpoch
  keys_le : ∀ ep ak, s.activeKeys.get? ep = some ak → ep ≤ s.currentEpoch
  current_round : 0 < s.currentEpoch → (s.rounds.get? s.currentEpoch).isSome = true
  current_active : ∀ r, s.rounds.get? s.currentEpoch = some r → r.status = .active →
    s.currentEpoch = s.activeEpoch
  current_key : (s.activeKeys.get? s.currentEpoch).isSome = true →
    ∀ r, s.rounds.get? s.currentEpoch = some r → r.status = .active
  active_key : s.activeEpoch ≠ 0 → (s.activeKeys.get? s.activeEpoch).isSome = true
  tx_key : ∀ tx ∈ s.encTxs.entries, tx.epoch ≠ 0 → (s.activeKeys.get? tx.epoch).isSome = true
  cache_key : ∀ ep, ep ≠ 0 → s.HasCache ep → (s.activeKeys.get? ep).isSome = true
  live_key : ∀ ep, ep ≠ 0 → ep ≠ pending → (s.activeKeys.get? ep).isSome = true → s.Live ep
  live_round : ∀ ep, ep ≠ 0 → ep ≠ pending → s.HasRound ep → s.Live ep

theorem PoolInv.exists_tx (h : s.PoolInv X) (hep : ep ≠ 0) (hcount : s.getEpochEncCount ep ≠ 0) :
    ∃ tx ∈ s.encTxs.entries, tx.epoch = ep := by
  rw [getEpochEncCount, h.exact.epoch ep (Nat.pos_of_ne_zero hep), countRecord_getD] at hcount
  obtain ⟨tx, htx, heq⟩ := count_pos_iff.mp (Nat.pos_of_ne_zero hcount)
  exact ⟨tx, htx, of_decide_eq_true heq⟩

theorem BoundedBut.prune (h : s.BoundedBut X a) : (s.maybePruneEpoch a).BoundedBut X 0 := by
  obtain ⟨heq, hkept⟩ | ⟨hactive, hcurrent, hcount, hzero, heq⟩ := s.maybePruneEpoch_cases a
  · rw [heq]
    have hpending : ∀ ep, ep ≠ 0 → (ep ≠ a → s.Live ep) → s.Live ep := by
      intro ep hep hother
      by_cases hea : ep = a
      · subst hea
        obtain hz | hact | hcur | hcount := hkept
        · exact absurd hz hep
        · exact .inr (.inl hact)
        · exact .inl hcur
        · exact .inr (.inr (h.pool.exists_tx hep hcount))
      · exact hother hea
    exact { h with
      live_key := fun ep hep _ hk => hpending ep hep fun hne => h.live_key ep hep hne hk
      live_round := fun ep hep _ hr => hpending ep hep fun hne => h.live_round ep hep hne hr }
  · rw [heq]
    have hnotx := h.pool.cover.not_mem hzero hcount
    -- nothing of the pruned epoch is left, and everything else is as before
    have hkey : ∀ ep, ((s.activeKeys.del a).get? ep).isSome = true ↔
        ep ≠ a ∧ (s.activeKeys.get? ep).isSome = true := fun ep => has_del _ _ _
    refine ⟨h.pool.of_pool rfl, fun ep r hr => h.rounds_le ep r (get?_of_del hr),
      fun ep ak hak => h.keys_le ep ak (get?_of_del hak), fun hpos => ?_, fun r hr => ?_, fun hk r hr => ?_, fun hact => ?_,
      fun tx htx hne => ?_, fun ep hep hc => ?_, fun ep hep _ hk => ?_, fun ep hep _ hr => ?_⟩
    · rw [get?_del_of_ne hcurrent.symm]
      exact h.current_round hpos
    · exact h.current_active r (get?_of_del hr)
    · exact h.current_key ((hkey _).mp hk).2 r (get?_of_del hr)
    · exact (hkey _).mpr ⟨hactive.symm, h.active_key hact⟩
    · exact (hkey _).mpr ⟨hnotx tx htx, h.tx_key tx htx hne⟩
    · have hea : ep ≠ a := by
        rintro rfl
        cases hc with
        | shareKey i hs => simp [lookup_delWhere] at hs
        | cursor hs => simp [lookup_del] at hs
        | streak hs => simp [lookup_del] at hs
      refine (hkey _).mpr ⟨hea, h.cache_key ep hep (hc.mono ?_ ?_ ?_)⟩
      · simp [lookup_delWhere, hea]
      · simp [lookup_del, hea]
      · simp [lookup_del, hea]
    · obtain ⟨hea, hk⟩ := (hkey ep).mp hk
      exact h.live_key ep hep hea hk
    · have hea : ep ≠ a := by
        rintro rfl
        cases hr with
        | round hs => simp at hs
        | dealing i hs => simp [get?_delWhere] at hs
        | complaint i j hs => simp [get?_delWhere] at hs
        | rejected i j k hs => simp [lookup_delWhere] at hs
      refine h.live_round ep hep hea (hr.mono ?_ ?_ ?_ ?_)
      · simp [get?_del, hea]
      · simp [get?_delWhere, hea]
      · simp [get?_delWhere, hea]
      · simp [lookup_delWhere, hea]

theorem BoundedBut.sameRounds (h : s.BoundedBut X 0)
    (hpool : s'.PoolInv X) (hrounds : s'.rounds = s.rounds) (hkeys : s'.activeKeys = s.activeKeys)
    (hcurrent : s'.currentEpoch = s.currentEpoch) (hactive : s'.activeEpoch = s.activeEpoch)
    (htx : ∀ tx ∈ s'.encTxs.entries, tx.epoch ≠ 0 → (s.activeKeys.get? tx.epoch).isSome = true)
    (hlive : ∀ ep, ep ≠ a → s.Live ep → s'.Live ep)
    (hcache : ∀ ep, ep ≠ 0 → s'.HasCache ep →
      s.HasCache ep ∨ (s.activeKeys.get? ep).isSome = true)
    (hround : ∀ ep, s'.HasRound ep → s.HasRound ep) : s'.BoundedBut X a := by
  refine ⟨hpool, ?_, ?_, ?_, ?_, ?_, ?_, ?_, fun ep hep hc => ?_, fun ep hep hea hk => ?_,
    fun ep hep hea hr => hlive ep hea (h.live_round ep hep hep (hround ep hr))⟩
  · rw [hrounds, hcurrent]
    exact h.rounds_le
  · rw [hkeys, hcurrent]
    exact h.keys_le
  · rw [hrounds, hcurrent]
    exact h.current_round
  · rw [hrounds, hcurrent, hactive]
    exact h.current_active
  · rw [hrounds, hkeys, hcurrent]
    exact h.current_key
  · rw [hkeys, hactive]
    exact h.active_key
  · rw [hkeys]
    exact htx
  · rw [hkeys]
    exact (hcache ep hep hc).elim (h.cache_key ep hep) id
  · rw [hkeys] at hk
    exact hlive ep hea (h.live_key ep hep hep hk)

theorem HasCache.of_dkg (heq : s'.dkg = s.dkg) (h : s'.HasCache ep) : s.HasCache ep := by
  cases s
  cases s'
  cases heq
  exact h.mono (fun _ => id) id id

theorem HasRound.of_dkg (heq : s'.dkg = s.dkg) (h : s'.HasRound ep) : s.HasRound ep := by
  cases s
  cases s'
  cases heq
  exact h.mono id (fun _ => id) (fun _ _ => id) fun _ _ _ => id

/-- A change of the pool alone. -/
theorem BoundedBut.sameDkg (h : s.BoundedBut X 0) (hpool : s'.PoolInv X) (hdkg : s'.dkg = s.dkg)
    (htx : ∀ tx ∈ s'.encTxs.entries, tx.epoch ≠ 0 → (s.activeKeys.get? tx.epoch).isSome = true)
    (hkept : ∀ tx ∈ s.encTxs.entries, tx.epoch ≠ a → ∃ tx' ∈ s'.encTxs.entries, tx'.epoch = tx.epoch) :
    s'.BoundedBut X a := by
  have hfield {α : Type} (f : State → α) : f s'.dkg = f s.dkg := congrArg f hdkg
  refine h.sameRounds hpool (hfield State.rounds) (hfield State.activeKeys)
    (hfield State.currentEpoch) (hfield State.activeEpoch) htx (fun ep hea hl => ?_)
    (fun ep _ hc => .inl (hc.of_dkg hdkg)) fun ep hr => hr.of_dkg hdkg
  refine hl.imp (fun heq => heq.trans (hfield State.currentEpoch).symm)
    (Or.imp (fun heq => heq.trans (hfield State.activeEpoch).symm) ?_)
  rintro ⟨tx, htx, rfl⟩
  exact hkept tx htx hea

theorem BoundedBut.congr (h : s.BoundedBut X 0) (hpool : s'.PoolInv X) (hdkg : s'.dkg = s.dkg)
    (htxs : s'.encTxs = s.encTxs) : s'.BoundedBut X 0 :=
  h.sameDkg hpool hdkg (htxs ▸ h.tx_key) fun tx htx _ => ⟨tx, htxs ▸ htx, rfl⟩

/-- A change of the records beside the rounds. -/
theorem BoundedBut.withRecords {d c rc} (h : s.BoundedBut X 0)
    (hround : ∀ ep, { s with dealings := d, complaints := c, rejectedComplaints := rc }.HasRound ep →
      s.HasRound ep) :
    BoundedBut X 0 { s with dealings := d, complaints := c, rejectedComplaints := rc } :=
  h.sameRounds (h.pool.of_pool rfl) rfl rfl rfl rfl h.tx_key (fun _ _ hl => hl)
    (fun _ _ hc => .inl (hc.mono (fun _ => id) id id)) hround

/-- A change of the records derived from the keys. -/
theorem BoundedBut.withCache {sk cu st} (h : s.BoundedBut X 0)
    (hcache : ∀ ep, ep ≠ 0 →
      { s with shareKeys := sk, shareKeyCursors := cu, strandStreaks := st }.HasCache ep →
      s.HasCache ep ∨ (s.activeKeys.get? ep).isSome = true) :
    BoundedBut X 0 { s with shareKeys := sk, shareKeyCursors := cu, strandStreaks := st } :=
  h.sameRounds (h.pool.of_pool rfl) rfl rfl rfl rfl h.tx_key (fun _ _ hl => hl) hcache
    fun _ hr => hr.mono id (fun _ => id) (fun _ _ => id) fun _ _ _ => id

/-- Opening the next epoch, if what the epoch left behind still has belongs to a serving epoch. -/
theorem BoundedBut.opened {base : State} {r : DkgRound} (h : s.BoundedBut X 0)
    (hpool : PoolInv X { base with
      rounds := base.rounds.put r, currentEpoch := s.currentEpoch + 1 })
    (hepoch : r.epoch = s.currentEpoch + 1) (hstatus : r.status = .isOpen)
    (hkeys : base.activeKeys = s.activeKeys) (htxs : base.encTxs = s.encTxs)
    (hactive : base.activeEpoch = s.activeEpoch)
    (hcache : ∀ ep, base.HasCache ep → s.HasCache ep)
    (hrounds : ∀ ep x, base.rounds.get? ep = some x → s.rounds.get? ep = some x)
    (hround : ∀ ep, base.HasRound ep → s.HasRound ep)
    (hleft : s.currentEpoch ≠ 0 → base.HasRound s.currentEpoch
      ∨ (s.activeKeys.get? s.currentEpoch).isSome = true → s.currentEpoch = s.activeEpoch) :
    BoundedBut X 0 { base with
      rounds := base.rounds.put r, currentEpoch := s.currentEpoch + 1 } := by
  have hnew : (base.rounds.put r).get? (s.currentEpoch + 1) = some r := by
    rw [← hepoch]
    exact get?_put_self _ r
  have hlive : ∀ ep, (ep = s.currentEpoch → ep = s.activeEpoch) → s.Live ep →
      Live { base with rounds := base.rounds.put r, currentEpoch := s.currentEpoch + 1 } ep := by
    rintro ep hcur (heq | hserves | htx)
    · exact .inr (.inl ((hcur heq).trans hactive.symm))
    · exact .inr (.inl (hserves.trans hactive.symm))
    · exact .inr (.inr (htxs ▸ htx))
  refine ⟨hpool, forall_get?_put hepoch.le fun ep x hx => ?_, fun ep ak hak => ?_, fun _ => ?_,
    fun x hx hact => ?_, fun hk => ?_, ?_, ?_, fun ep hep hc => ?_, fun ep hep _ hk => ?_,
    fun ep hep _ hr => ?_⟩
  · exact Nat.le_succ_of_le (h.rounds_le ep x (hrounds ep x hx))
  · exact Nat.le_succ_of_le (h.keys_le ep ak (hkeys ▸ hak))
  · rw [hnew]
    rfl
  · rw [hnew] at hx
    cases hx
    rw [hstatus] at hact
    cases hact
  · -- no key is stored above the epoch left behind
    obtain ⟨ak, hak⟩ := Option.isSome_iff_exists.mp hk
    exact absurd (h.keys_le _ ak (hkeys ▸ hak)) (Nat.not_succ_le_self _)
  · rw [hkeys, hactive]
    exact h.active_key
  · rw [hkeys, htxs]
    exact h.tx_key
  · rw [hkeys]
    exact h.cache_key ep hep (hcache ep (hc.mono (fun _ => id) id id))
  · rw [hkeys] at hk
    refine hlive ep (fun heq => ?_) (h.live_key ep hep hep hk)
    subst heq
    exact hleft hep (.inr hk)
  · by_cases hne : ep = s.currentEpoch + 1
    · exact .inl hne
    · have hold : base.HasRound ep := by
        refine hr.mono ?_ (fun _ => id) (fun _ _ => id) fun _ _ _ => id
        rw [get?_put_of_ne (hepoch ▸ hne : ep ≠ r.epoch)]
        exact id
      refine hlive ep (fun heq => ?_) (h.live_round ep hep hep (hround ep hold))
      subst heq
      exact hleft hep (.inl hold)

theorem restatus_rounds {round : DkgRound} (hlast : s.lastRound = some round) (status : DkgStatus) :
    (s.rounds.put { round with status := status }).get? s.currentEpoch
      = some { round with status := status }
    ∧ ∀ ep, ((s.rounds.put { round with status := status }).get? ep).isSome
      = (s.rounds.get? ep).isSome := by
  obtain ⟨hget, hcur, -⟩ := get?_of_lastRound hlast
  refine ⟨hcur ▸ get?_put_self s.rounds { round with status := status }, fun ep => ?_⟩
  rw [get?_put]
  split_ifs with heq
  · rw [heq, hget]
    rfl
  · rfl

/-- **Every write keeps the epochs bounded**, as long as neither counter wraps. -/
theorem BoundedBut.write (hseq : ¬ w.seq) (hepoch : ¬ w.epoch) (hwrite : Write X ctx w s s')
    (h : s.BoundedBut X 0) : s'.BoundedBut X 0 := by
  have hpool := h.pool.write hseq hwrite
  cases hwrite with
  | ledger hcore =>
    exact h.congr hpool (congrArg State.dkg hcore :) (congrArg State.encTxs hcore :)
  | @submit submitter a nonce body epoch _ _ _ _ _ hstamp _ =>
    refine h.sameDkg hpool rfl (forall_mem_put (fun hne => ?_) h.tx_key) fun tx htx _ => ?_
    · obtain rfl : epoch = s.activeEpoch := hstamp.resolve_left hne
      exact h.active_key hne
    · -- the sequence number is fresh, so no ciphertext is overwritten
      refine ⟨tx, (mem_put_iff _ _ _).mpr (.inr ⟨htx, fun hkey => ?_⟩), rfl⟩
      have hlt := h.pool.seq tx htx
      rw [(key2_inj.mp hkey).2] at hlt
      exact Nat.lt_irrefl _ hlt
  | @stamp e bond denom he _ =>
    refine h.sameDkg hpool rfl (forall_mem_put (h.tx_key e he) h.tx_key) fun tx htx _ => ?_
    by_cases hkey : tx.key = e.key
    · -- the stamped ciphertext keeps its epoch
      cases eq_of_key htx he hkey
      exact ⟨_, (mem_put_iff _ _ _).mpr (.inl rfl), rfl⟩
    · exact ⟨tx, (mem_put_iff _ _ _).mpr (.inr ⟨htx, hkey⟩), rfl⟩
  | @release e he =>
    apply BoundedBut.prune
    refine h.sameDkg (h.pool.withoutEncTx he) rfl (fun tx htx hne => ?_) fun tx htx hea => ?_
    · exact h.tx_key tx ((mem_del_iff _ _ _).mp htx).1 hne
    · refine ⟨tx, (mem_del_iff _ _ _).mpr ⟨htx, fun hkey => ?_⟩, rfl⟩
      exact hea (congrArg EncTx.epoch (eq_of_key htx he hkey))
  | purge =>
    exact h.withRecords fun ep hr => HasRound.of_purge hr
  | openRound hbase hmembers _ hnext hopen =>
    obtain ⟨r, hep, hstatus, -, -, -, -, rfl⟩ := openRound_spec hopen
    rw [wrap64_of_lt (hnext.resolve_left hepoch)] at hep hpool ⊢
    obtain ⟨rfl, hactive⟩ | ⟨rfl, last, hlast, hnotActive, -⟩ := hbase
    · refine h.opened hpool hep hstatus rfl rfl rfl (fun _ hc => hc) (fun _ _ hx => hx)
        (fun _ hr => hr) fun hne _ => ?_
      -- the round left behind is active, so its epoch serves
      have hpos := Nat.pos_of_ne_zero hne
      obtain ⟨r₀, hr₀⟩ := Option.isSome_iff_exists.mp (h.current_round hpos)
      exact h.current_active r₀ hr₀ (hactive r₀ (by rw [lastRound, if_pos hpos, hr₀]))
    · obtain ⟨hget, hcur, -⟩ := get?_of_lastRound hlast
      rw [hcur] at hget
      refine h.opened hpool hep hstatus rfl rfl rfl (fun _ hc => hc.mono (fun _ => id) id id)
        (fun ep x hx => get?_of_del hx) (fun ep hr => HasRound.of_purge (hr.mono ?_ (fun _ => id)
          (fun _ _ => id) fun _ _ _ => id)) fun _ hleft => ?_
      · simp only [purgeFailedRound, purgeDealings, get?_del]
        split_ifs <;> simp
      · -- the purge leaves nothing of the round, and without an active round there is no key
        cases hleft with
        | inl hr =>
          cases hr with
          | round hs => simp [purgeFailedRound, purgeDealings] at hs
          | dealing i hs | complaint i j hs =>
            simp [purgeFailedRound, purgeDealings, get?_delWhere] at hs
          | rejected i j k hs => simp [purgeFailedRound, purgeDealings, lookup_delWhere] at hs
        | inr hk => exact absurd (h.current_key hk last hget) hnotActive
  | @failRound round hlast hopen =>
    obtain ⟨hget, hcur, -⟩ := get?_of_lastRound hlast
    obtain ⟨hnew, hsame⟩ := restatus_rounds hlast .failed
    refine ⟨hpool, forall_get?_put hcur.le h.rounds_le, h.keys_le,
      fun hpos => (hsame _).trans (h.current_round hpos), fun x hx hact => ?_, fun hk x hx => ?_,
      h.active_key, h.tx_key, fun ep hep hc => h.cache_key ep hep (hc.mono (fun _ => id) id id),
      h.live_key, fun ep hep hne hr => h.live_round ep hep hne (hr.mono (hsame ep ▸ id) (fun _ => id)
        (fun _ _ => id) fun _ _ _ => id)⟩
    · cases hnew.symm.trans hx
      cases hact
    · have hactive := h.current_key hk round (hcur ▸ hget)
      rw [hopen] at hactive
      cases hactive
  | @activate round res sk cu hlast hopen hres hsk hcu _ =>
    obtain ⟨-, hcur, -⟩ := get?_of_lastRound hlast
    apply BoundedBut.prune
    obtain ⟨hnew, hsame⟩ := restatus_rounds hlast .active
    have hkey : ∀ ep, ((s.activeKeys.put (installedKey round res)).get? ep).isSome = true ↔
        ep = s.currentEpoch ∨ (s.activeKeys.get? ep).isSome = true := fun ep => by
      rw [← hcur]
      exact has_put _ _ _
    -- the epoch that served before is pending until the prune
    have hlive : ∀ ep, ep ≠ s.activeEpoch → s.Live ep →
        ep = s.currentEpoch ∨ ep = round.epoch ∨ ∃ tx ∈ s.encTxs.entries, tx.epoch = ep := by
      rintro ep hne (heq | hserves | htx)
      · exact .inl heq
      · exact absurd hserves hne
      · exact .inr (.inr htx)
    refine ⟨h.pool.of_pool rfl, forall_get?_put hcur.le h.rounds_le, fun ep ak hak => ?_,
      fun hpos => (hsame _).trans (h.current_round hpos), fun _ _ _ => hcur.symm, fun _ x hx => ?_,
      fun _ => (hkey _).mpr (.inl hcur), fun tx htx hne => (hkey _).mpr (.inr (h.tx_key tx htx hne)),
      fun ep hep hc => ?_, fun ep hep hne hk => ?_, fun ep hep hne hr => ?_⟩
    · obtain heq | hold := (hkey ep).mp (by rw [hak]; rfl)
      · exact heq.le
      · obtain ⟨ak', hak'⟩ := Option.isSome_iff_exists.mp hold
        exact h.keys_le ep ak' hak'
    · cases hnew.symm.trans hx
      rfl
    · rw [hkey]
      cases hc with
      | shareKey i hi =>
        obtain ⟨y, hy⟩ := Option.isSome_iff_exists.mp hi
        obtain hold | ⟨heq, -⟩ := hsk ep i y hy
        · exact .inr (h.cache_key ep hep (.shareKey i (by rw [hold]; rfl)))
        · exact .inl (heq.trans hcur)
      | cursor hi =>
        obtain hold | heq := hcu ep hi
        · exact .inr (h.cache_key ep hep (.cursor hold))
        · exact .inl (heq.trans hcur)
      | streak hi => exact .inr (h.cache_key ep hep (.streak hi))
    · obtain heq | hold := (hkey ep).mp hk
      · exact .inl heq
      · exact hlive ep hne (h.live_key ep hep hep hold)
    · exact hlive ep hne (h.live_round ep hep hep (hr.mono (hsame ep ▸ id) (fun _ => id)
        (fun _ _ => id) fun _ _ _ => id))
  | @deal round d hround hopen _ _ =>
    refine h.withRecords fun ep hr => ?_
    by_cases hep : ep = d.epoch
    · exact .round (by rw [hep, hround]; rfl)
    · refine hr.mono id (fun i => ?_) (fun _ _ => id) fun _ _ _ => id
      have hne : key2 ep i ≠ d.key := fun heq => hep (key2_inj.mp heq).1
      rw [get?_put_of_ne hne]
      exact id
  | @complain c hround =>
    refine h.withRecords fun ep hr => ?_
    by_cases hep : ep = c.epoch
    · exact .round (hep ▸ hround)
    · refine hr.mono id (fun _ => id) (fun i j => ?_) fun _ _ _ => id
      have hne : key3 ep i j ≠ c.key := fun heq => hep (key3_inj.mp heq).1
      rw [get?_put_of_ne hne]
      exact id
  | @rejectComplaint epoch against accuser point hround =>
    refine h.withRecords fun ep hr => ?_
    by_cases hep : ep = epoch
    · exact .round (hep ▸ hround)
    · refine hr.mono id (fun _ => id) (fun _ _ => id) fun i j k => ?_
      simp only [lookup_assign]
      rw [if_neg (fun heq => hep (key4_inj.mp heq).1)]
      exact id
  | streaks hst =>
    refine h.withCache fun ep hep hc => ?_
    cases hc with
    | shareKey i hi => exact .inl (.shareKey i hi)
    | cursor hi => exact .inl (.cursor hi)
    | streak hi =>
      obtain hold | hkey | ⟨tx, htx, rfl⟩ := hst ep hi
      · exact .inl (.streak hold)
      · exact .inr hkey
      · exact .inr (h.tx_key tx htx hep)
  | cache hsk hcu _ =>
    refine h.withCache fun ep hep hc => ?_
    cases hc with
    | shareKey i hi =>
      obtain ⟨y, hy⟩ := Option.isSome_iff_exists.mp hi
      obtain hold | ⟨-, ak, hak, -⟩ := hsk ep i y hy
      · exact .inl (.shareKey i (by rw [hold]; rfl))
      · exact .inr (by rw [hak]; rfl)
    | cursor hi => exact .inl (.cursor (hcu ep hi))
    | streak hi => exact .inl (.streak hi)
  | _ => exact h.congr hpool rfl rfl

end State

/-- A genesis whose epochs are bounded: its rounds are those of the current epoch, the serving one
and the ciphertexts' epochs, none of them above the current epoch; and the current round is active
exactly if its epoch serves or has a key. -/
structure GenesisState.Bounded (gs : GenesisState) : Prop where
  contained : ∀ r ∈ gs.dkgRounds, r.epoch = gs.currentEpoch ∨ r.epoch = gs.activeEpoch
    ∨ ∃ e ∈ gs.encTxs, e.epoch = r.epoch
  ordered : ∀ r ∈ gs.dkgRounds, r.epoch ≤ gs.currentEpoch
  current_active : ∀ r ∈ gs.dkgRounds, r.epoch = gs.currentEpoch → r.status = .active →
    gs.currentEpoch = gs.activeEpoch
  current_key : ∀ ak ∈ gs.activeKeys, ak.epoch = gs.currentEpoch →
    ∀ r ∈ gs.dkgRounds, r.epoch = gs.currentEpoch → r.status = .active

namespace State

theorem BoundedBut.genesis {gs : GenesisState} {s : State} (hlen : gs.encTxs.length < 2 ^ 64)
    (hgs : gs.Bounded) (h : initGenesis X gs = .ok s) : s.BoundedBut X 0 := by
  have himp := initGenesis_imported h
  have hlive : ∀ ep r, gs.roundOf ep = some r → s.Live ep := by
    intro ep r hr
    obtain ⟨hmem, rfl⟩ := GenesisState.roundOf_spec hr
    refine (hgs.contained r hmem).imp (fun hc => hc.trans himp.current.symm)
      (Or.imp (fun ha => ha.trans himp.active.symm) fun ⟨e, he, hep⟩ => ?_)
    exact ⟨e, (himp.tx e).mpr he, hep⟩
  refine ⟨.genesis hlen h, fun ep r hr => ?_, fun ep ak hak => ?_, fun hpos => ?_, fun r hr hact => ?_,
    fun hk r hr => ?_, fun hact => ?_, fun tx htx hne => ?_, fun ep _ hc => ?_, fun ep _ _ hk => ?_,
    fun ep _ _ hr => ?_⟩
  · obtain ⟨hmem, rfl⟩ := GenesisState.roundOf_spec ((himp.round ep).symm.trans hr)
    exact himp.current ▸ hgs.ordered r hmem
  · obtain ⟨r, hr, -⟩ := himp.accepted.key_round ((himp.key ep).symm.trans hak)
    obtain ⟨hmem, rfl⟩ := GenesisState.roundOf_spec hr
    exact himp.current ▸ hgs.ordered r hmem
  · rw [himp.current] at hpos ⊢
    obtain ⟨r, hr⟩ := himp.accepted.current hpos
    rw [himp.round, hr]
    rfl
  · rw [himp.round, himp.current] at hr
    obtain ⟨hmem, hep⟩ := GenesisState.roundOf_spec hr
    rw [himp.current, himp.active]
    exact hgs.current_active r hmem hep hact
  · rw [himp.round, himp.current] at hr
    rw [himp.key, himp.current] at hk
    obtain ⟨hmem, hep⟩ := GenesisState.roundOf_spec hr
    obtain ⟨ak, hak⟩ := Option.isSome_iff_exists.mp hk
    obtain ⟨hakMem, hakEp⟩ := GenesisState.activeKeyOf_spec hak
    exact hgs.current_key ak hakMem hakEp r hmem hep
  · rw [himp.active] at hact ⊢
    obtain ⟨-, ak, -, -, hak⟩ := himp.accepted.active (Nat.pos_of_ne_zero hact)
    rw [himp.key, hak]
    rfl
  · obtain ⟨ak, hak⟩ := himp.accepted.tx_key ((himp.tx tx).mp htx) (Nat.pos_of_ne_zero hne)
    rw [himp.key, hak]
    rfl
  · -- an import starts without caches
    cases hc with
    | shareKey i hi => simp [himp.shareKeys] at hi
    | cursor hi => simp [himp.shareKeyCursors] at hi
    | streak hi => simp [himp.strandStreaks] at hi
  · obtain ⟨ak, hak⟩ := Option.isSome_iff_exists.mp hk
    obtain ⟨r, hr, -⟩ := himp.accepted.key_round ((himp.key ep).symm.trans hak)
    exact hlive ep r hr
  · cases hr with
    | round hi =>
      obtain ⟨r, hr⟩ := Option.isSome_iff_exists.mp hi
      exact hlive ep r ((himp.round ep).symm.trans hr)
    | dealing i hi =>
      obtain ⟨d, hd⟩ := Option.isSome_iff_exists.mp hi
      have hkey : d.key = key2 ep i := key_of_get? hd
      obtain ⟨r, hr, -⟩ := himp.accepted.dealing d (himp.dealing d (mem_of_get? hd))
      exact (key2_inj.mp hkey).1 ▸ hlive _ r hr
    | complaint i j hi => simp [himp.complaints] at hi
    | rejected i j k hi => simp [himp.rejectedComplaints] at hi

end State

/-- **Per-epoch state is bounded.** From a genesis with bounded epochs, in every state reached while
neither the sequence nor the epoch counter wraps, every epoch with a stored round, dealing,
complaint, rejected-complaint marker, key, cached share key, cursor or strand streak is the current
one, the serving one, or that of a stored ciphertext. -/
theorem epochs_bounded {gs : GenesisState} (hlen : gs.encTxs.length < 2 ^ 64) (hgs : gs.Bounded)
    {h : Nat} {c : Chain}
    (hreach : Chain.Reachable X (fun s ctx a => SeqRoom s ctx a ∧ EpochRoom s ctx a) gs h c)
    {ep : Nat} (hep : ep ≠ 0)
    (hrec : c.state.HasRound ep ∨ (c.state.activeKeys.get? ep).isSome = true
      ∨ c.state.HasCache ep) :
    ep = c.state.currentEpoch ∨ ep = c.state.activeEpoch
      ∨ ∃ tx ∈ c.state.encTxs.entries, tx.epoch = ep := by
  have hinv : c.state.BoundedBut X 0 := by
    refine hreach.by_writes (w := ⟨False, False, True⟩) (I := fun _ s => s.BoundedBut X 0) trivial
      (.inr fun _ _ _ hallow => hallow.1) (.inr fun _ _ _ hallow => hallow.2)
      (fun s hs => .genesis hlen hgs hs) (fun _ _ _ _ hs => hs)
      (fun ctx s s' hwrite hs => hs.write id id hwrite)
      (fun _ s p hvalid _ hs => ?_) (fun ctx s s' msg _ hok hs => ?_)
    · exact hs.congr ⟨hvalid, hs.pool.seq, hs.pool.room, ⟨hs.pool.exact.1, hs.pool.exact.2,
        hs.pool.exact.3⟩⟩ rfl rfl
    · obtain ⟨-, -, -, rfl⟩ := State.submitDecryptionShare_spec hok
      exact hs.congr (hs.pool.of_pool rfl) rfl rfl
  obtain hround | hkey | hcache := hrec
  · exact hinv.live_round ep hep hep hround
  · exact hinv.live_key ep hep hep hkey
  · exact hinv.live_key ep hep hep (hinv.cache_key ep hep hcache)

/-- The round of the sample committee's serving epoch stays after an end-block, and its epoch is
the current one. -/
theorem epochs_bounded_serving : ∃ c,
    Chain.Reachable dkgPrimitives (fun s ctx a => SeqRoom s ctx a ∧ EpochRoom s ctx a)
      (dkgGenesis 1 1 1 [round 1 .active] [key 1] [dealing 1]) 9 c
    ∧ (c.state.rounds.get? 1).isSome = true
    ∧ (1 = c.state.currentEpoch ∨ 1 = c.state.activeEpoch
      ∨ ∃ tx ∈ c.state.encTxs.entries, tx.epoch = 1) := by
  obtain ⟨c, hreach, hround⟩ : ∃ c, Chain.Reachable dkgPrimitives
      (fun s ctx a => SeqRoom s ctx a ∧ EpochRoom s ctx a)
      (dkgGenesis 1 1 1 [round 1 .active] [key 1] [dealing 1]) 9 c
      ∧ (c.state.rounds.get? 1).isSome = true :=
    Chain.exists_reachable [(block 10 (by decide), .endBlockDKG)] (by decide +kernel)
  refine ⟨c, hreach, hround, epochs_bounded (by decide) ?_ hreach (by decide)
    (.inl (.round hround))⟩
  exact ⟨by decide +kernel, by decide +kernel, by decide +kernel, by decide +kernel⟩

/-- A ciphertext of epoch 0 that strands past its grace leaves a streak of epoch 0 behind; and an
accepted genesis whose current round is active without serving keeps that round after the next epoch
opens. -/
theorem epochs_unbounded :
    (∃ c, Chain.Reachable dkgPrimitives (fun _ _ _ => True)
        (dkgGenesis 1 1 0 [round 1 .active] [key 1] [dealing 1]) 9 c
      ∧ (c.state.strandStreaks.lookup 0).isSome = true ∧ c.state.currentEpoch = 1
      ∧ c.state.activeEpoch = 1 ∧ c.state.encTxs.entries = [])
    ∧ ∃ c, Chain.Reachable dkgPrimitives (fun _ _ _ => True)
        (dkgGenesis 2 1 1
          [round 1 .active, { round 2 .active with membersHash := [] }]
          [key 1, key 2] [dealing 1, dealing 2]) 9 c
      ∧ (c.state.rounds.get? 2).isSome = true ∧ c.state.currentEpoch = 3
      ∧ c.state.activeEpoch = 1 ∧ c.state.encTxs.entries.map EncTx.epoch = [1] :=
  ⟨Chain.exists_reachable [(block 132 (by decide), .beginBlock noExecutor)]
    (by decide +kernel),
   Chain.exists_reachable [(block 10 (by decide), .endBlockDKG)] (by decide +kernel)⟩

end EncMempool
