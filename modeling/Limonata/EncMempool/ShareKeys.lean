import Limonata.EncMempool.Epochs

/-!
# x/encmempool — the share keys a share is verified against

A share on a vote extension is checked against the public share key of its point. The key comes from
a per-epoch cache when it is there and is recomputed from the epoch's commitments otherwise. The
cache is sound: in every reachable state a cached entry is the share key of its point under the key
stored for its epoch. With the numbering of the members this settles what an ingested share has been
checked for.
-/

namespace EncMempool

open Machine Check RecStore KVStore State

variable {X : External} {ctx : Ctx} {w : Wraps}

/-- What the parser reads from a compressed encoding is the point that was encoded. -/
def External.ParsesBack (X : External) : Prop :=
  ∀ P Q, X.parsePubKey (X.serializeCompressed P) = some Q → Q = P

variable {s t s' : State} {h epoch : Nat} {operator : Bytes} {sh : VoteExtShare}

namespace State

variable {members : List RoundMember} {hash : Bytes} {attempt : Nat} {p : Params}
  {r round : DkgRound} {member : RoundMember} {e : EncTx} {u : State}
  {submitted : Bytes → VoteExtShare → Prop}

/-! ## Numbered members -/

theorem openRound_index (hopen : s.openRound X epoch members hash h p attempt = some s')
    (hr : s'.rounds.get? epoch = some r) :
    r.members.map RoundMember.index = members.map RoundMember.index := by
  obtain ⟨r', rfl, -, -, -, -, hmt, rfl⟩ := openRound_spec hopen
  have hsame : r' = r := Option.some.inj ((get?_put_self s.rounds r').symm.trans hr)
  subst hsame
  split_ifs at hmt
  · have hplain := congrArg (List.map RoundMember.index) (allocateEvalPoints_plain hmt.1)
    rw [List.map_map, List.map_map] at hplain
    exact hplain
  · rw [hmt.1]

/-- The members a round is opened with are numbered apart. -/
theorem openRound_numbered {base : State}
    (hold : ∀ ep x, s.rounds.get? ep = some x → (x.members.map RoundMember.index).Nodup)
    (hmembers : (members = activeMembers ctx s s.params ∧ members.length ≠ 0)
      ∨ ∃ r, s.lastRound = some r ∧ r.status = .failed ∧ members = r.members)
    (hopen : base.openRound X epoch members hash h s.params attempt = some s')
    (hr : s'.rounds.get? epoch = some r) : (r.members.map RoundMember.index).Nodup := by
  rw [openRound_index hopen hr]
  obtain ⟨rfl, -⟩ | ⟨last, hlast, -, rfl⟩ := hmembers
  · rw [activeMembers_index]
    exact List.nodup_range'
  · exact hold _ last (get?_of_lastRound hlast).1

theorem operator_of_memberByIndex {m : RoundMember}
    (hnodup : (round.members.map RoundMember.index).Nodup)
    (hidx : memberIndexByOperator round.members operator ≠ 0)
    (hm : memberByIndex round (memberIndexByOperator round.members operator) = some m) :
    m ∈ round.members ∧ m.operatorAddr = operator := by
  have hmem : m ∈ round.members := List.mem_of_find?_eq_some hm
  have hindex := List.find?_some hm
  refine ⟨hmem, ?_⟩
  unfold memberIndexByOperator at hidx hindex
  split_ifs at hidx hindex with hempty
  · exact absurd rfl hidx
  · cases hfind : round.members.find? (fun m => m.operatorAddr = operator) with
    | none => simp [hfind] at hidx
    | some m₀ =>
      simp only [hfind, decide_eq_true_eq] at hindex
      have heq := List.inj_on_of_nodup_map hnodup hmem (List.mem_of_find?_eq_some hfind) hindex
      rw [heq]
      simpa using List.find?_some hfind

/-! ## The cache -/

/-- The cache has an entry or a cursor for the epoch. -/
def Cached (s : State) (ep : Nat) : Prop :=
  (∃ i, (s.shareKeys.lookup (key2 ep i)).isSome = true)
    ∨ (s.shareKeyCursors.lookup ep).isSome = true

/-- Cached share keys are those of the stored key, and only an epoch that is not above the current
one and whose round, if stored, is active has any. -/
structure CacheSound (X : External) (s : State) : Prop where
  numbered : ∀ ep r, s.rounds.get? ep = some r → (r.members.map RoundMember.index).Nodup
  settled : ∀ ep, s.Cached ep → ep ≤ s.currentEpoch
    ∧ ∀ r, s.rounds.get? ep = some r → r.status = .active
  sound : ∀ ep i y, s.shareKeys.lookup (key2 ep i) = some y →
    ∃ ak, s.activeKeys.get? ep = some ak ∧ IsShareKey X ak.publicCommitments i y

theorem CacheSound.congr (h : s.CacheSound X) (hrounds : s'.rounds = s.rounds)
    (hkeys : s'.activeKeys = s.activeKeys) (hcurrent : s'.currentEpoch = s.currentEpoch)
    (hshareKeys : s'.shareKeys = s.shareKeys)
    (hcursors : s'.shareKeyCursors = s.shareKeyCursors) : s'.CacheSound X := by
  obtain ⟨hnumbered, hsettled, hsound⟩ := h
  unfold Cached at hsettled
  refine ⟨?_, ?_, ?_⟩
  · rwa [hrounds]
  · unfold Cached
    rwa [hrounds, hcurrent, hshareKeys, hcursors]
  · rwa [hkeys, hshareKeys]

theorem CacheSound.maybePrune (h : s.CacheSound X) (a : Nat) :
    (s.maybePruneEpoch a).CacheSound X := by
  obtain ⟨heq, -⟩ | ⟨-, -, -, -, heq⟩ := s.maybePruneEpoch_cases a
  · rw [heq]
    exact h
  rw [heq]
  refine ⟨fun ep r hr => h.numbered ep r (get?_of_del hr), fun ep hc => ?_, fun ep i y hy => ?_⟩
  · have hold : s.Cached ep := by
      obtain ⟨i, hi⟩ | hi := hc
      · simp only [lookup_delWhere] at hi
        split_ifs at hi
        · cases hi
        · exact .inl ⟨i, hi⟩
      · simp only [lookup_del] at hi
        split_ifs at hi
        · cases hi
        · exact .inr hi
    exact ⟨(h.settled ep hold).1, fun r hr => (h.settled ep hold).2 r (get?_of_del hr)⟩
  · by_cases hea : ep = a
    · simp [lookup_delWhere, hea] at hy
    · rw [lookup_delWhere, if_neg (by simp [hea])] at hy
      obtain ⟨ak, hak, hkey⟩ := h.sound ep i y hy
      exact ⟨ak, (get?_del_of_ne hea).trans hak, hkey⟩

theorem CacheSound.not_cached (h : s.CacheSound X) (hlast : s.lastRound = some round)
    (hstatus : round.status ≠ .active) : ¬ s.Cached s.currentEpoch := by
  intro hc
  obtain ⟨hget, hcur, -⟩ := get?_of_lastRound hlast
  exact hstatus ((h.settled _ hc).2 round (hcur ▸ hget))

/-- **Every write keeps the cache sound**, as long as the epoch counter does not wrap. -/
theorem CacheSound.write (hw : ¬ w.epoch) (hwrite : Write X ctx w s s')
    (h : s.CacheSound X) : s'.CacheSound X := by
  cases hwrite with
  | ledger hcore =>
    cases s
    cases s'
    cases hcore
    exact h.congr rfl rfl rfl rfl rfl
  | release =>
    apply CacheSound.maybePrune
    exact h.congr rfl rfl rfl rfl rfl
  | @openRound base _ members hash attempt hbase hmembers _ hnext hopen =>
    have hnumbered := fun r => openRound_numbered (r := r) h.numbered hmembers hopen
    obtain ⟨r, hep, -, -, -, -, -, rfl⟩ := openRound_spec hopen
    rw [wrap64_of_lt (hnext.resolve_left hw)] at hep hnumbered ⊢
    have hsub : ∀ ep x, ep ≠ s.currentEpoch + 1 → (base.rounds.put r).get? ep = some x →
        s.rounds.get? ep = some x := by
      intro ep x hne hx
      rw [get?_put_of_ne (hep ▸ hne : ep ≠ r.epoch)] at hx
      obtain ⟨rfl, -⟩ | ⟨rfl, -⟩ := hbase
      · exact hx
      · exact get?_of_del hx
    refine ⟨fun ep x hx => ?_, fun ep hc => ?_, fun ep i y hy => ?_⟩
    · by_cases hne : ep = s.currentEpoch + 1
      · subst hne
        exact hnumbered x hx
      · exact h.numbered ep x (hsub ep x hne hx)
    · have hold : s.Cached ep := by
        obtain ⟨rfl, -⟩ | ⟨rfl, -⟩ := hbase
        · exact hc
        · exact hc
      obtain ⟨hle, hactive⟩ := h.settled ep hold
      refine ⟨Nat.le_succ_of_le hle, fun x hx => hactive x (hsub ep x (by omega) hx)⟩
    · obtain ⟨rfl, -⟩ | ⟨rfl, -⟩ := hbase
      · exact h.sound ep i y hy
      · exact h.sound ep i y hy
  | @failRound round hlast hopen =>
    obtain ⟨hget, hcur, -⟩ := get?_of_lastRound hlast
    have hnone := h.not_cached hlast (by rw [hopen]; decide)
    refine ⟨forall_get?_put (h.numbered _ round hget) h.numbered, fun ep hc => ?_, h.sound⟩
    obtain ⟨hle, hactive⟩ := h.settled ep hc
    have hne : ep ≠ s.currentEpoch := fun heq => hnone (heq ▸ hc)
    refine ⟨hle, fun x hx => hactive x ?_⟩
    simpa only [get?_put, hcur, if_neg hne] using hx
  | @activate round res sk cu hlast hopen hres hsk hcu _ =>
    apply CacheSound.maybePrune
    obtain ⟨hget, hcur, -⟩ := get?_of_lastRound hlast
    -- an open round has no cache yet, so the new key meets no old entry
    have hnone := h.not_cached hlast (by rw [hopen]; decide)
    have hput : ∀ ep, (s.rounds.put { round with status := .active }).get? ep
        = if ep = s.currentEpoch then some { round with status := .active }
          else s.rounds.get? ep := fun ep => by rw [get?_put, ← hcur]
    refine ⟨forall_get?_put (h.numbered _ round hget) h.numbered, fun ep hc => ?_, fun ep i y hy => ?_⟩
    · by_cases hep : ep = s.currentEpoch
      · refine ⟨hep.le, fun x hx => ?_⟩
        rw [hput, if_pos hep] at hx
        cases hx
        rfl
      · have hold : s.Cached ep := by
          obtain ⟨i, hi⟩ | hi := hc
          · obtain ⟨y, hy⟩ := Option.isSome_iff_exists.mp hi
            obtain hold | ⟨heq, -⟩ := hsk ep i y hy
            · exact .inl ⟨i, by rw [hold]; rfl⟩
            · exact absurd (heq.trans hcur) hep
          · exact .inr ((hcu ep hi).resolve_right fun heq => hep (heq.trans hcur))
        obtain ⟨hle, hactive⟩ := h.settled ep hold
        refine ⟨hle, fun x hx => hactive x ?_⟩
        rwa [hput, if_neg hep] at hx
    · obtain hold | ⟨rfl, hkey⟩ := hsk ep i y hy
      · have hep : ep ≠ s.currentEpoch := fun heq =>
          hnone (heq ▸ .inl ⟨i, by rw [hold]; rfl⟩)
        obtain ⟨ak, hak, hkey⟩ := h.sound ep i y hold
        have hne : ep ≠ (installedKey round res).epoch := fun heq => hep (heq.trans hcur)
        exact ⟨ak, (get?_put_of_ne hne).trans hak, hkey⟩
      · exact ⟨installedKey round res, get?_put_self s.activeKeys _, hkey⟩
  | cache hsk hcu _ =>
    refine ⟨h.numbered, fun ep hc => h.settled ep ?_, fun ep i y hy => ?_⟩
    · obtain ⟨i, hi⟩ | hi := hc
      · obtain ⟨y, hy⟩ := Option.isSome_iff_exists.mp hi
        obtain hold | ⟨hcursor, -⟩ := hsk ep i y hy
        · exact .inl ⟨i, by rw [hold]; rfl⟩
        · exact .inr hcursor
      · exact .inr (hcu ep hi)
    · obtain hold | ⟨-, hkey⟩ := hsk ep i y hy
      · exact h.sound ep i y hold
      · exact hkey
  | _ => exact h.congr rfl rfl rfl rfl rfl

/-! ## Ingested shares -/

/-- What a share of a vote extension must have passed: its index is a point of the operator's own
member entry in the round of the ciphertext's epoch, and its proof verifies against the public share
key of that point under the epoch's key. -/
def ShareChecked (X : External) (s : State) (operator : Bytes) (sh : VoteExtShare) : Prop :=
  ∃ e round m ak comm Y proof,
    s.encTxs.get? (key2 sh.decryptHeight sh.seq) = some e
    ∧ s.rounds.get? e.epoch = some round ∧ m ∈ round.members ∧ m.operatorAddr = operator
    ∧ m.ownsEvalPoint sh.index = true
    ∧ s.activeKeys.get? e.epoch = some ak
    ∧ parseCommitmentPoints X ak.publicCommitments = some comm
    ∧ sharePubKey X sh.index comm = some Y
    ∧ parseDLEQProof X sh.proof = some proof
    ∧ verifyDecryptShare X e.a sh.index sh.d Y proof = true

theorem CacheSound.verified (hX : X.ParsesBack) (h : s.CacheSound X)
    {index : Nat} {a d proofBz : Bytes}
    (hproof : s.verifyDecryptShareDLEQ X epoch a index d proofBz = true) :
    ∃ ak comm Y proof, s.activeKeys.get? epoch = some ak
      ∧ parseCommitmentPoints X ak.publicCommitments = some comm
      ∧ sharePubKey X index comm = some Y ∧ parseDLEQProof X proofBz = some proof
      ∧ verifyDecryptShare X a index d Y proof = true := by
  unfold verifyDecryptShareDLEQ at hproof
  cases hak : s.activeKeys.get? epoch with
  | none => simp [hak] at hproof
  | some ak =>
    simp only [hak] at hproof
    split_ifs at hproof
    cases hparse : parseDLEQProof X proofBz with
    | none => simp [hparse] at hproof
    | some proof =>
      simp only [hparse] at hproof
      cases hcache : s.cachedShareKey X epoch index with
      | none =>
        simp only [hcache] at hproof
        cases hkey : (parseCommitmentPoints X ak.publicCommitments).bind (sharePubKey X index) with
        | none => simp [hkey] at hproof
        | some Y =>
          simp only [hkey] at hproof
          obtain ⟨comm, hcomm, hY⟩ := Option.bind_eq_some_iff.mp hkey
          exact ⟨ak, comm, Y, proof, rfl, hcomm, hY, rfl, hproof⟩
      | some Y =>
        -- the cached encoding is that of the recomputed key, and parses back to it
        simp only [hcache] at hproof
        obtain ⟨yb, hyb, hY⟩ := Option.bind_eq_some_iff.mp hcache
        have hlookup := (Option.filter_eq_some_iff.mp hyb).1
        obtain ⟨ak', hak', comm, Y', hcomm, hY', rfl⟩ := h.sound epoch index yb hlookup
        cases hak.symm.trans hak'
        cases hX Y' Y hY
        exact ⟨ak, comm, Y, proof, rfl, hcomm, hY', rfl, hproof⟩

theorem CacheSound.checked (hX : X.ParsesBack) (h : s.CacheSound X)
    (hclass : s.classifyDecryptShare operator sh = some (member, e))
    (hproof : s.verifyDecryptShareDLEQ X e.epoch e.a sh.index sh.d sh.proof = true) :
    s.ShareChecked X operator sh := by
  obtain ⟨htx, -, -, round, hround, hmember, hidx, howns⟩ := classifyDecryptShare_spec hclass
  obtain ⟨hmem, hop⟩ := operator_of_memberByIndex (h.numbered _ round hround) hidx hmember
  obtain ⟨ak, comm, Y, proof, hak, hcomm, hY, hparse, hverify⟩ := h.verified hX hproof
  exact ⟨e, round, member, ak, comm, Y, proof, htx, hround, hmem, hop, howns, hak, hcomm, hY, hparse,
    hverify⟩

/-- The stores a share is checked against. -/
structure SameChecks (s t : State) : Prop where
  txs : t.encTxs = s.encTxs
  rounds : t.rounds = s.rounds
  keys : t.activeKeys = s.activeKeys
  shareKeys : t.shareKeys = s.shareKeys
  cursors : t.shareKeyCursors = s.shareKeyCursors
  current : t.currentEpoch = s.currentEpoch

theorem SameChecks.checked (h : SameChecks s t)
    (hc : t.ShareChecked X operator sh) : s.ShareChecked X operator sh := by
  unfold ShareChecked at hc ⊢
  rwa [h.txs, h.rounds, h.keys] at hc

theorem verifyAndStoreDecryptShare_same (s : State) (epoch : Nat) (a operator : Bytes)
    (sh : VoteExtShare) :
    SameChecks s (s.verifyAndStoreDecryptShare X epoch a operator sh).1 := by
  unfold verifyAndStoreDecryptShare
  split_ifs
  · exact ⟨rfl, rfl, rfl, rfl, rfl, rfl⟩
  · exact ⟨rfl, rfl, rfl, rfl, rfl, rfl⟩

theorem CacheSound.stored (hX : X.ParsesBack) (h : s.CacheSound X)
    (hclass : s.classifyDecryptShare operator sh = some (member, e)) :
    ∀ x ∈ (s.verifyAndStoreDecryptShare X e.epoch e.a operator sh).1.encShares.entries,
      x ∈ s.encShares.entries ∨ (x = sh.verifiedBy operator ∧ s.ShareChecked X operator sh) := by
  unfold verifyAndStoreDecryptShare
  split_ifs with hfalse
  · exact fun x hx => .inl hx
  · exact forall_mem_put (.inr ⟨rfl, h.checked hX hclass (by simpa using hfalse)⟩) fun x hx => .inl hx

theorem SameChecks.trans (h : SameChecks s t) (h' : SameChecks t u) : SameChecks s u :=
  ⟨h'.txs.trans h.txs, h'.rounds.trans h.rounds, h'.keys.trans h.keys,
    h'.shareKeys.trans h.shareKeys, h'.cursors.trans h.cursors, h'.current.trans h.current⟩

theorem SameChecks.sound (h : SameChecks s t) (hs : s.CacheSound X) : t.CacheSound X :=
  hs.congr h.rounds h.keys h.current h.shareKeys h.cursors

/-- `t` extends the shares of `s` by shares that `submitted` allows and that passed their checks. -/
def ExtendsBy (X : External) (submitted : Bytes → VoteExtShare → Prop) (s t : State) : Prop :=
  SameChecks s t ∧ ∀ x ∈ t.encShares.entries, x ∈ s.encShares.entries
    ∨ ∃ operator sh, submitted operator sh ∧ x = sh.verifiedBy operator
      ∧ s.ShareChecked X operator sh

theorem ExtendsBy.refl (submitted : Bytes → VoteExtShare → Prop) (s : State) :
    ExtendsBy X submitted s s :=
  ⟨⟨rfl, rfl, rfl, rfl, rfl, rfl⟩, fun _ hx => .inl hx⟩

theorem ExtendsBy.trans (h : ExtendsBy X submitted s t) (h' : ExtendsBy X submitted t u) :
    ExtendsBy X submitted s u := by
  refine ⟨h.1.trans h'.1, fun x hx => ?_⟩
  obtain hold | ⟨operator, sh, hsub, heq, hchecked⟩ := h'.2 x hx
  · exact h.2 x hold
  · exact .inr ⟨operator, sh, hsub, heq, h.1.checked hchecked⟩

/-- **The bounded ingestion stores only checked shares** of the extensions it is given. -/
theorem ingestDecryptSharesBounded_extends (hX : X.ParsesBack) (h : s.CacheSound X)
    (p : Params) (canon : List VEEntry) :
    ExtendsBy X (fun o sh => ∃ en ∈ canon, en.operator = o ∧ sh ∈ en.ve.shares) s
      (s.ingestDecryptSharesBounded X ctx p canon) := by
  refine Reach.run_keeps (I := fun t => ExtendsBy X
    (fun o sh => ∃ en ∈ canon, en.operator = o ∧ sh ∈ en.ve.shares) s t) (fun t t' hstep ht => ?_)
    (ingestDecryptSharesBounded_run s p canon) (.refl _ s)
  cases hstep with
  | @verify en sh _ _ hen hsh _ hclass =>
    exact ht.trans ⟨verifyAndStoreDecryptShare_same _ _ _ _ _, fun x hx =>
      ((ht.1.sound h).stored hX hclass x hx).imp_right fun hnew =>
        ⟨en.operator, sh, ⟨en, hen, rfl, hsh⟩, hnew⟩⟩

theorem ingestDecryptShareFromVE_extends (hX : X.ParsesBack) (h : s.CacheSound X)
    (operator : Bytes) (sh : VoteExtShare) :
    ExtendsBy X (fun o sh' => o = operator ∧ sh' = sh) s
      (s.ingestDecryptShareFromVE X ctx operator sh).1 := by
  unfold ingestDecryptShareFromVE
  split_ifs
  · exact .refl _ s
  · cases hclass : s.classifyDecryptShare operator sh with
    | none => exact .refl _ s
    | some me =>
      exact ⟨verifyAndStoreDecryptShare_same s _ _ operator sh, fun x hx =>
        (h.stored hX hclass x hx).imp_right fun ⟨heq, hc⟩ => ⟨operator, sh, ⟨rfl, rfl⟩, heq, hc⟩⟩

theorem CacheSound.genesis {gs : GenesisState} (h : initGenesis X gs = .ok s) : s.CacheSound X := by
  have himp := initGenesis_imported h
  refine ⟨fun ep r hr => ?_, fun ep hc => ?_, fun ep i y hy => ?_⟩
  · obtain ⟨hmem, -⟩ := GenesisState.roundOf_spec ((himp.round ep).symm.trans hr)
    have hvalid := validateImportedRound_eq_ok.mp (himp.accepted.round r hmem).2
    exact (checkRoundMembers_eq_ok.mp hvalid.2.2.2.2.2.1).2.1
  · obtain ⟨i, hi⟩ | hi := hc
    · simp [himp.shareKeys] at hi
    · simp [himp.shareKeyCursors] at hi
  · simp [himp.shareKeys] at hy

end State

theorem Chain.Reachable.cacheSound {allow : Allow} {gs : GenesisState} {c : Chain}
    (hreach : Chain.Reachable X allow gs h c)
    (hroom : ∀ s ctx a, allow s ctx a → EpochRoom s ctx a) : c.state.CacheSound X := by
  refine hreach.by_writes (w := ⟨True, False, True⟩) (I := fun _ s => s.CacheSound X) trivial (.inl trivial)
    (.inr hroom) (fun s hs => .genesis hs) (fun _ _ _ _ hs => hs)
    (fun ctx s s' hwrite hs => hs.write id hwrite)
    (fun _ s p _ _ hs => hs.congr rfl rfl rfl rfl rfl) (fun ctx s s' msg _ hok hs => ?_)
  obtain ⟨-, -, -, rfl⟩ := submitDecryptionShare_spec hok
  exact hs.congr rfl rfl rfl rfl rfl

/-- **No share before its height, and none unchecked.** From a genesis whose shares are mature at the
height of the import, no reachable state has a share ahead of its decrypt height. And as long as the
epoch counter does not wrap, whatever extensions a block brings, both ways of ingesting a share
store only shares whose index is a point of the submitting operator in the round of the ciphertext's
epoch and whose proof verifies against that epoch's public share key. -/
theorem shares_mature_and_checked (hX : X.ParsesBack) {allow : Allow} {gs : GenesisState} {h : Nat}
    {c : Chain} (hgs : ∀ sh ∈ gs.encShares, sh.decryptHeight ≤ h)
    (hreach : Chain.Reachable X allow gs h c) :
    (∀ sh ∈ c.state.encShares.entries, sh.decryptHeight ≤ c.height)
    ∧ ((∀ s ctx a, allow s ctx a → EpochRoom s ctx a) → ∀ ctx,
      (∀ operator sh, ∀ x ∈ (c.state.ingestDecryptShareFromVE X ctx operator sh).1.encShares.entries,
        x ∈ c.state.encShares.entries
          ∨ (x = sh.verifiedBy operator ∧ c.state.ShareChecked X operator sh))
      ∧ ∀ entries p, let canon := canonicalEntries entries
        let s := ((c.state.consumeDkg X ctx canon).poisonPhase X canon).1
        ∀ x ∈ (s.ingestDecryptSharesBounded X ctx p canon).encShares.entries,
          x ∈ s.encShares.entries ∨ ∃ en ∈ canon, ∃ sh ∈ en.ve.shares,
            x = sh.verifiedBy en.operator ∧ s.ShareChecked X en.operator sh) := by
  refine ⟨?_, fun hroom ctx => ?_⟩
  · refine hreach.by_writes (w := ⟨True, True, True⟩) (I := fun n s => s.SharesMature n) trivial (.inl trivial)
      (.inl trivial) (fun s hs sh hsh => ?_) (fun _ _ _ hle hs sh hsh => (hs sh hsh).trans hle)
      (fun ctx s s' hwrite hs => hs.write hwrite) (fun _ _ _ _ _ hs => hs)
      (fun ctx s s' msg _ hok hs => ?_)
    · obtain ⟨sh', hsh', rfl⟩ := (initGenesis_imported hs).share sh hsh
      exact hgs sh' hsh'
    · obtain ⟨hmature, -, -, rfl⟩ := submitDecryptionShare_spec hok
      exact hs.put hmature
  · have hsound := hreach.cacheSound hroom
    refine ⟨fun operator sh x hx => ?_, fun entries p => ?_⟩
    · obtain hold | ⟨o, sh', ⟨rfl, rfl⟩, hchecked⟩ :=
        (ingestDecryptShareFromVE_extends hX hsound operator sh).2 x hx
      · exact .inl hold
      · exact .inr hchecked
    · intro canon s x hx
      -- the earlier phases of the block are writes, so the cache is sound when the shares come
      have hs : s.CacheSound X := by
        have hwrites : DkgWrites X ctx ⟨True, False, True⟩ c.state s :=
          (((announcePhase_writes _ canon).trans (dealPhase_writes _ canon)).trans
            (complaintPhase_writes _ canon)).trans (poisonPhase_writes _ canon)
        exact Reach.run_keeps (fun t t' hwrite ht => ht.write id hwrite) hwrites.writes hsound
      obtain hold | ⟨o, sh, ⟨en, hen, rfl, hsh⟩, hx⟩ :=
        (ingestDecryptSharesBounded_extends hX hs p canon).2 x hx
      · exact .inl hold
      · exact .inr ⟨en, hen, sh, hsh, hx⟩

theorem ofTables_parsesBack {t : Tables} (hnodup : (t.points.map Prod.snd).Nodup)
    (hne : ∀ p ∈ t.points, p.2 ≠ []) : (External.ofTables t).ParsesBack := by
  intro (P : Nat) (Q : Nat) hparse
  obtain ⟨q, hq, rfl⟩ := Option.map_eq_some_iff.mp hparse
  have hqmem := List.mem_of_find?_eq_some hq
  have hdec := List.find?_some hq
  have hqenc : q.2 = ((t.points.find? (fun p => p.1 = P)).map Prod.snd).getD [] :=
    of_decide_eq_true hdec
  cases hfind : t.points.find? (fun p => p.1 = P) with
  | none =>
    rw [hfind] at hqenc
    exact absurd hqenc (hne q hqmem)
  | some p =>
    rw [hfind] at hqenc
    have hpq := List.inj_on_of_nodup_map hnodup hqmem (List.mem_of_find?_eq_some hfind) hqenc
    have hlog : p.1 = P := by simpa using List.find?_some hfind
    rw [hpq]
    exact hlog

open Sample

/-- At height 100 the sample committee's share of a ciphertext of that height is stored, so it has
been checked. -/
theorem shares_mature_and_checked_voted : ∃ c,
    Chain.Reachable dkgPrimitives EpochRoom
      (dkgGenesis 1 1 1 [round 1 .active] [key 1] [dealing 1]) 9 c
    ∧ voteShare.verifiedBy Sample.operator ∈ (c.state.ingestDecryptShareFromVE
        dkgPrimitives (block 100 (by decide)) Sample.operator
        voteShare).1.encShares.entries
    ∧ c.state.ShareChecked dkgPrimitives Sample.operator voteShare
    ∧ ∀ sh ∈ c.state.encShares.entries, sh.decryptHeight ≤ c.height := by
  obtain ⟨c, hreach, hstored, hnew⟩ : ∃ c, Chain.Reachable dkgPrimitives EpochRoom
      (dkgGenesis 1 1 1 [round 1 .active] [key 1] [dealing 1]) 9 c
      ∧ voteShare.verifiedBy Sample.operator ∈ (c.state.ingestDecryptShareFromVE
          dkgPrimitives (block 100 (by decide)) Sample.operator
          voteShare).1.encShares.entries
      ∧ voteShare.verifiedBy Sample.operator ∉ c.state.encShares.entries :=
    Chain.exists_reachable [(block 10 (by decide), .endBlockDKG)] (by decide +kernel)
  have hX : dkgPrimitives.ParsesBack :=
    ofTables_parsesBack (by decide +kernel) (by decide +kernel)
  obtain ⟨hmature, hchecked⟩ := shares_mature_and_checked hX (by decide) hreach
  have hingest := (hchecked (fun _ _ _ hallow => hallow) (block 100 (by decide))).1
    Sample.operator voteShare _ hstored
  exact ⟨c, hreach, hstored, (hingest.resolve_left hnew).2, hmature⟩

/-- An accepted genesis may carry a share ahead of its height. -/
theorem shares_early_genesis : ∃ c,
    Chain.Reachable primitives (fun _ _ _ => True)
      { genesis 1 [encTx 11 0] with encShares := [(share 0).share] } 10 c
    ∧ c.height = 10 ∧ ∃ sh ∈ c.state.encShares.entries, sh.decryptHeight = 11 :=
  Chain.exists_reachable [] (by decide +kernel)

end EncMempool
