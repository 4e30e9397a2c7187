import Limonata.EncMempool.VerifyVote
import Limonata.EncMempool.Export

/-!
# x/encmempool — an honest extension is accepted

A node sizes its extension by the rounds in the store: a dealing has a share for every point of the
open round, a ciphertext gets a share for every point the node owns in the round of its key, and
complaints and reports are bounded by the members of a round. A peer sizes its checks by the
parameters. The two agree as long as every stored round fits the parameters, which rounds opened under
them do and a change of the parameters may undo.
-/

namespace EncMempool

open Machine Check

/-! ## What a node emits -/

/-- The sizes of what the node's cryptography emits. -/
structure Node.HonestSizes {X : External} (node : Node X) : Prop where
  point : ∀ P, (X.serializeCompressed P).length ≤ 33
  scalar : ∀ a, (X.scalarBytes a).length ≤ 32
  sealed : ∀ key nonce msg, (node.gcmSeal key nonce msg).length ≤ msg.length + 16
  signature : ∀ a digest, (node.ecdsaSign a digest).length ≤ 72
  encKey : ∀ ek ∈ node.encKey, ek.pub.length ≤ 33

/-- A round whose committee and points are within the caps of the parameters. -/
@[mk_iff] structure DkgRound.Fits (p : Params) (r : DkgRound) : Prop where
  members : r.members.length ≤ p.effectiveMaxMembers
  points : totalEvalPoints r.members ≤ p.effectiveShareBudget
  threshold : r.threshold ≤ p.effectiveShareBudget

instance (p : Params) (r : DkgRound) : Decidable (r.Fits p) :=
  decidable_of_iff' _ (DkgRound.fits_iff p r)

namespace Node

variable {X : External} {node : Node X} {ctx : Ctx} {s : State} {ek : EncKey X} {operator : Bytes}
variable {d : VoteExtDealing} {encPriv : X.Scalar} {epoch against limit cap : Nat} {p : Params}
  {c : VoteExtComplaint} {coeffs : List X.Scalar} {targets : List (Bytes × Nat)}
  {out : List VoteExtShare} {round : DkgRound} {points : List Nat} {stored : List EncShare}
  {e : EncTx} {es : List EncTx} {shares : List (Share X)}

theorem proveDecryptShare_bounded (hsizes : node.HonestSizes) {share : Share X} {ctA d : Bytes}
    {proof : DLEQProof X} (h : node.proveDecryptShare share ctA = some (d, proof)) :
    proofBounded d (marshalDLEQProof proof) = true := by
  obtain ⟨ds, hds, hA⟩ := Option.bind_eq_some_iff.mp h
  obtain ⟨A, -, hD⟩ := Option.bind_eq_some_iff.mp hA
  obtain ⟨D, -, hproof⟩ := Option.bind_eq_some_iff.mp hD
  obtain ⟨P, -, rfl⟩ := Option.map_eq_some_iff.mp hds
  cases hproof
  refine decide_eq_true ⟨hsizes.point _, ?_⟩
  rw [marshalDLEQProof, List.length_append]
  exact Nat.add_le_add (hsizes.scalar _) (hsizes.scalar _)

theorem accuse_bounded (hsizes : node.HonestSizes) {p : Nat} {encA : Bytes}
    (h : node.accuse encPriv epoch against p encA = some c) :
    proofBounded c.sharedPoint c.dleqProof = true := by
  obtain ⟨⟨d, proof⟩, hprove, rfl⟩ := Option.map_eq_some_iff.mp h
  exact proveDecryptShare_bounded hsizes hprove

/-! ### The dealing -/

theorem sealShares_spec (hsizes : node.HonestSizes) {i : Nat} {out : List DkgStoredEncShare}
    (h : node.sealShares coeffs i targets = some out) :
    out.length = targets.length ∧ ∀ es ∈ out, es.a.length ≤ veMaxPointBytes
      ∧ es.body.length ≤ veMaxEncShareBodyBytes ∧ es.nonce.length ≤ nonceSize := by
  induction targets generalizing i out with
  | nil =>
    cases h
    exact ⟨rfl, nofun⟩
  | cons target targets ih =>
    obtain ⟨encPub, p⟩ := target
    obtain ⟨share, -, h⟩ := Option.bind_eq_some_iff.mp h
    obtain ⟨ct, hct, h⟩ := Option.bind_eq_some_iff.mp h
    obtain ⟨more, hmore, h⟩ := Option.bind_eq_some_iff.mp h
    cases h
    obtain ⟨hlen, hall⟩ := ih hmore
    refine ⟨congrArg Nat.succ hlen, List.forall_mem_cons.mpr ⟨?_, hall⟩⟩
    -- the sealed share is the one just encrypted
    obtain ⟨Y, -, rfl⟩ := Option.map_eq_some_iff.mp hct
    refine ⟨hsizes.point _, ?_, (node.sealRand i).2.2.le⟩
    have hbody := hsizes.sealed (X.sha256 (X.serializeCompressed (X.mulPoint (node.sealRand i).1.1 Y)))
      (node.sealRand i).2.1 (X.scalarBytes share)
    have hscalar := hsizes.scalar share
    show (node.gcmSeal _ _ _).length ≤ 128
    omega

theorem length_sealTargets (members : List RoundMember) :
    (sealTargets members).length = totalEvalPoints members := by
  simp [sealTargets, totalEvalPoints, List.length_flatMap]

theorem buildDealing_bounded (hsizes : node.HonestSizes) (hfits : round.Fits p)
    (h : node.buildDealing round.epoch round.members round.threshold = some d) :
    dealingBounded p d = true := by
  unfold buildDealing at h
  simp only at h
  split_ifs at h
  obtain ⟨out, hout, rfl⟩ := Option.map_eq_some_iff.mp h
  obtain ⟨hlen, hall⟩ := sealShares_spec hsizes hout
  rw [length_sealTargets] at hlen
  refine decide_eq_true ⟨?_, hlen.trans_le hfits.points, ?_, hall⟩
  · simpa using hfits.threshold
  · intro c hc
    obtain ⟨a, -, rfl⟩ := List.mem_map.mp hc
    exact hsizes.point _

/-- Sealing fails on nothing but a key that does not parse. -/
theorem exists_sealShares (hcoeffs : coeffs ≠ [])
    (hkeys : ∀ target ∈ targets, (X.parsePubKey target.1).isSome = true) (i : Nat) :
    ∃ out, node.sealShares coeffs i targets = some out := by
  induction targets generalizing i with
  | nil => exact ⟨[], rfl⟩
  | cons target targets ih =>
    obtain ⟨encPub, p⟩ := target
    obtain ⟨hkey, hkeys⟩ := List.forall_mem_cons.mp hkeys
    obtain ⟨Y, hY⟩ := Option.isSome_iff_exists.mp hkey
    obtain ⟨more, hmore⟩ := ih hkeys (i + 1)
    obtain ⟨a, as, rfl⟩ := List.exists_cons_of_ne_nil hcoeffs
    have heval : ∃ share, evalPoly X p (a :: as) = some share := by
      rw [evalPoly]
      cases evalPoly X p as with
      | none => exact ⟨_, rfl⟩
      | some acc => exact ⟨_, rfl⟩
    obtain ⟨share, hshare⟩ := heval
    simp [sealShares, hshare, encryptShareTo, encryptWithR, hY, hmore]

/-- What makes a node deal: it is a member of the open round, inside its deal window, without a dealing
in the store, and the keys of the members parse. -/
@[mk_iff] structure Deals (X : External) (ctx : Ctx) (s : State) (operator : Bytes) (round : DkgRound) :
    Prop where
  last : s.lastRound = some round
  isOpen : round.status = .isOpen
  window : ctx.height ≤ round.dealDeadline
  member : memberIndexByOperator round.members operator ≠ 0
  undealt : s.dealings.has (key2 round.epoch (memberIndexByOperator round.members operator)) = false
  threshold : 1 ≤ round.threshold
  points : totalEvalPoints round.members ≠ 0
  keys : ∀ m ∈ round.members, (X.parsePubKey m.encPubKey).isSome = true

instance (ctx : Ctx) (s : State) (operator : Bytes) (round : DkgRound) :
    Decidable (Deals X ctx s operator round) :=
  decidable_of_iff' _ (deals_iff X ctx s operator round)

theorem exists_extendDealing (hsizes : node.HonestSizes) (h : Deals X ctx s operator round) :
    ∃ d, node.extendDealing ctx s operator = some d
      ∧ d.encShares.length = totalEvalPoints round.members := by
  have hcoeffs : (List.range round.threshold).map (fun j => (node.coeff j).1) ≠ [] := by
    have hpos := h.threshold
    simp only [ne_eq, List.map_eq_nil_iff, List.range_eq_nil]
    omega
  have hkeys : ∀ target ∈ sealTargets round.members, (X.parsePubKey target.1).isSome = true := by
    intro target htarget
    obtain ⟨m, hm, htarget⟩ := List.mem_flatMap.mp htarget
    obtain ⟨p, -, rfl⟩ := List.mem_map.mp htarget
    exact h.keys m hm
  obtain ⟨out, hout⟩ : ∃ out, node.sealShares _ 0 (sealTargets round.members) = some out :=
    exists_sealShares hcoeffs hkeys 0
  obtain ⟨hlen, -⟩ := sealShares_spec hsizes hout
  have hthreshold : ¬ (round.threshold < 1 ∨ totalEvalPoints round.members = 0) :=
    not_or.mpr ⟨Nat.not_lt.mpr h.threshold, h.points⟩
  have hfree : ¬ (memberIndexByOperator round.members operator = 0
      ∨ s.dealings.has (key2 round.epoch (memberIndexByOperator round.members operator)) = true) :=
    not_or.mpr ⟨h.member, Bool.not_eq_true _ |>.mpr h.undealt⟩
  unfold extendDealing
  simp only [h.last, if_pos (And.intro h.isOpen h.window), if_neg hfree, buildDealing,
    if_neg hthreshold, hout, Option.map_some]
  exact ⟨_, rfl, hlen.trans (length_sealTargets round.members)⟩

/-! ### Complaints and reports -/

theorem noDeal_bounded (epoch against p : Nat) :
    proofBounded (noDeal epoch against p).sharedPoint (noDeal epoch against p).dleqProof = true :=
  rfl

theorem reportOf_bounded (hsizes : node.HonestSizes) {myIdx : Nat} {r : PoisonReport}
    (h : node.reportOf s encPriv epoch myIdx r = some c) :
    proofBounded c.sharedPoint c.dleqProof = true := by
  unfold reportOf at h
  split_ifs at h
  cases hdealing : s.dealings.get? (key2 epoch r.dealer) with
  | none => simp [hdealing] at h
  | some dealing =>
    simp only [hdealing] at h
    cases hfind : dealing.encShares.find? (fun e => e.memberIndex = r.point) with
    | none =>
      simp only [hfind] at h
      cases h
      exact noDeal_bounded _ _ _
    | some enc =>
      simp only [hfind] at h
      exact accuse_bounded hsizes h

theorem collectReports_spec {report : PoisonReport → Option VoteExtComplaint}
    {P : VoteExtComplaint → Prop} (hreport : ∀ r c, report r = some c → P c)
    (out : List VoteExtComplaint) (reports : List PoisonReport) (hlen : out.length ≤ limit)
    (hout : ∀ c ∈ out, P c) :
    (collectReports limit report out reports).length ≤ limit
      ∧ ∀ c ∈ collectReports limit report out reports, P c := by
  induction reports generalizing out with
  | nil => exact ⟨hlen, hout⟩
  | cons r rest ih =>
    unfold collectReports
    split_ifs with hfull
    · exact ⟨hlen, hout⟩
    · cases hr : report r with
      | none => exact ih out hlen hout
      | some c =>
        refine ih _ ?_ ?_
        · rw [List.length_append, List.length_singleton]
          omega
        · exact List.forall_mem_append.mpr ⟨hout, List.forall_mem_singleton.mpr (hreport r c hr)⟩

theorem buildDkgPoisonReports_spec (hsizes : node.HonestSizes)
    (hfits : ∀ ep r, s.rounds.get? ep = some r → r.Fits p) :
    (node.buildDkgPoisonReports s ek operator).length ≤ p.effectiveMaxMembers
      ∧ ∀ c ∈ node.buildDkgPoisonReports s ek operator,
        proofBounded c.sharedPoint c.dleqProof = true := by
  have hnil : ([] : List VoteExtComplaint).length ≤ p.effectiveMaxMembers
      ∧ ∀ c ∈ ([] : List VoteExtComplaint), proofBounded c.sharedPoint c.dleqProof = true :=
    ⟨Nat.zero_le _, nofun⟩
  unfold buildDkgPoisonReports
  simp only
  split_ifs
  · exact hnil
  · cases hround : s.rounds.get? s.activeEpoch with
    | none => exact hnil
    | some round =>
      simp only
      split_ifs
      · exact hnil
      · split
        · rename_i myIdx points ak hpoints hkey
          obtain ⟨hlen, hall⟩ := collectReports_spec
            (fun r c hr => reportOf_bounded hsizes hr) []
            (node.cachedPoisonReports s.activeEpoch ek.priv ak.qual
              (fun dealer => s.dealings.get? (key2 s.activeEpoch dealer)) points)
            (Nat.zero_le round.members.length) nofun
          exact ⟨hlen.trans (hfits _ _ hround).members, hall⟩
        · exact hnil

theorem firstComplaint_bounded (hsizes : node.HonestSizes) {dealing : Dealing}
    {commitments : List X.Point}
    (h : node.firstComplaint encPriv epoch against dealing commitments points = some c) :
    proofBounded c.sharedPoint c.dleqProof = true := by
  induction points with
  | nil => cases h
  | cons p ps ih =>
    unfold firstComplaint at h
    cases hfind : dealing.encShares.find? (fun e => e.memberIndex = p) with
    | none =>
      simp only [hfind] at h
      cases h
      exact noDeal_bounded _ _ _
    | some enc =>
      simp only [hfind] at h
      split_ifs at h
      · exact ih h
      · cases hacc : node.accuse encPriv epoch against p enc.a with
        | none =>
          simp only [hacc] at h
          exact ih h
        | some c' =>
          simp only [hacc] at h
          cases h
          exact accuse_bounded hsizes hacc

theorem buildDkgComplaints_spec (hsizes : node.HonestSizes) (round : DkgRound) :
    (node.buildDkgComplaints s ek operator round).length ≤ round.members.length
      ∧ ∀ c ∈ node.buildDkgComplaints s ek operator round,
        proofBounded c.sharedPoint c.dleqProof = true := by
  unfold buildDkgComplaints
  cases myPoints round operator with
  | none => exact ⟨Nat.zero_le _, nofun⟩
  | some mine =>
    refine ⟨List.length_filterMap_le _ _, fun c hc => ?_⟩
    obtain ⟨m, -, hm⟩ := List.mem_filterMap.mp hc
    split_ifs at hm
    obtain ⟨dealing, -, hm⟩ := Option.bind_eq_some_iff.mp hm
    obtain ⟨commitments, -, hm⟩ := Option.bind_eq_some_iff.mp hm
    exact firstComplaint_bounded hsizes hm

/-! ### Decryption shares -/

/-- The ciphertext a share is for. -/
def ciphertextOf (sh : VoteExtShare) : Nat × Nat := (sh.decryptHeight, sh.seq)

/-- The shares collected so far, with `es` still to be served. -/
structure Served (cap limit : Nat) (es : List EncTx) (out : List VoteExtShare) : Prop where
  length : out.length ≤ cap
  perCiphertext : ∀ k, (out.map ciphertextOf).count k ≤ limit
  fresh : ∀ e ∈ es, (e.decryptHeight, e.seq) ∉ out.map ciphertextOf
  bounded : ∀ sh ∈ out, proofBounded sh.d sh.proof = true

theorem served_nil (cap limit : Nat) (es : List EncTx) : Served cap limit es [] :=
  ⟨Nat.zero_le _, fun _ => Nat.zero_le _, fun _ _ => List.not_mem_nil, nofun⟩

theorem serveCiphertext_spec (hsizes : node.HonestSizes) (shares : List (Share X))
    (hlen : out.length ≤ cap) :
    ∃ more, node.serveCiphertext cap stored e out shares = out ++ more
      ∧ out.length + more.length ≤ cap ∧ more.length ≤ shares.length
      ∧ ∀ sh ∈ more, ciphertextOf sh = (e.decryptHeight, e.seq)
        ∧ proofBounded sh.d sh.proof = true := by
  induction shares generalizing out with
  | nil => exact ⟨[], (List.append_nil out).symm, hlen, Nat.le_refl 0, nofun⟩
  | cons share shares ih =>
    have hskip : ∃ more, node.serveCiphertext cap stored e out shares = out ++ more
        ∧ out.length + more.length ≤ cap ∧ more.length ≤ shares.length + 1
        ∧ ∀ sh ∈ more, ciphertextOf sh = (e.decryptHeight, e.seq)
          ∧ proofBounded sh.d sh.proof = true := by
      obtain ⟨more, heq, hcap, hle, hall⟩ := ih hlen
      exact ⟨more, heq, hcap, Nat.le_succ_of_le hle, hall⟩
    unfold serveCiphertext
    split_ifs with hfull
    · exact ⟨[], (List.append_nil out).symm, hlen, Nat.zero_le _, nofun⟩
    · exact hskip
    · cases hprove : node.proveDecryptShare share e.a with
      | none => exact hskip
      | some proved =>
        obtain ⟨d, proof⟩ := proved
        simp only
        set sh : VoteExtShare := { epoch := e.epoch, decryptHeight := e.decryptHeight, seq := e.seq
                                   index := share.index, d := d, proof := marshalDLEQProof proof }
        have hroom : (out ++ [sh]).length ≤ cap := by
          rw [List.length_append, List.length_singleton]
          omega
        obtain ⟨more, heq, hcap, hle, hall⟩ := ih hroom
        refine ⟨sh :: more, by rw [heq, List.append_assoc, List.singleton_append], ?_, ?_, ?_⟩
        · rw [List.length_append, List.length_singleton] at hcap
          rw [List.length_cons]
          omega
        · exact Nat.succ_le_succ hle
        · exact List.forall_mem_cons.mpr
            ⟨⟨rfl, proveDecryptShare_bounded hsizes hprove⟩, hall⟩

theorem Served.serve (hsizes : node.HonestSizes) (h : Served cap limit (e :: es) out)
    (hshares : shares.length ≤ limit)
    (hdistinct : ∀ e' ∈ es, (e'.decryptHeight, e'.seq) ≠ (e.decryptHeight, e.seq)) :
    Served cap limit es (node.serveCiphertext cap stored e out shares) := by
  obtain ⟨more, heq, hcap, hle, hall⟩ := serveCiphertext_spec hsizes shares h.length
  obtain ⟨hnew, hfresh⟩ := List.forall_mem_cons.mp h.fresh
  have hkeys : ∀ k ∈ more.map ciphertextOf, k = (e.decryptHeight, e.seq) := fun k hk => by
    obtain ⟨sh, hsh, rfl⟩ := List.mem_map.mp hk
    exact (hall sh hsh).1
  rw [heq]
  refine ⟨by rwa [List.length_append], fun k => ?_, fun e' he' hmem => ?_, ?_⟩
  · rw [List.map_append, List.count_append]
    by_cases hk : k = (e.decryptHeight, e.seq)
    · subst hk
      rw [List.count_eq_zero.mpr hnew, Nat.zero_add]
      exact List.count_le_length.trans (by rw [List.length_map]; exact hle.trans hshares)
    · rw [List.count_eq_zero.mpr fun hmem => hk (hkeys k hmem)]
      exact h.perCiphertext k
  · rw [List.map_append] at hmem
    rcases List.mem_append.mp hmem with hold | hmore
    · exact hfresh e' he' hold
    · exact hdistinct e' he' (hkeys _ hmore)
  · exact List.forall_mem_append.mpr ⟨h.bounded, fun sh hsh => (hall sh hsh).2⟩

theorem Served.tail (h : Served cap limit (e :: es) out) : Served cap limit es out :=
  ⟨h.length, h.perCiphertext, fun e' he' => h.fresh e' (.tail _ he'), h.bounded⟩

/-- **The loop over the ciphertexts.** The invariant is that no ciphertext still to come has a
share. -/
theorem serveCiphertexts_served (hsizes : node.HonestSizes) {h : Nat}
    (hshares : ∀ epoch shares, node.deriveEpochShares s ek operator epoch = some shares →
      shares.length ≤ limit)
    (hnodup : (es.map fun e => (e.decryptHeight, e.seq)).Nodup) (hserved : Served cap limit es out) :
    Served cap limit [] (node.serveCiphertexts s ek operator h cap out es) := by
  have hstop : ∀ {es : List EncTx} {out : List VoteExtShare}, Served cap limit es out →
      Served cap limit [] out := fun h => ⟨h.length, h.perCiphertext, nofun, h.bounded⟩
  induction es generalizing out with
  | nil => exact hserved
  | cons e es ih =>
    obtain ⟨hnotin, hnodup⟩ := List.nodup_cons.mp hnodup
    unfold serveCiphertexts
    split_ifs
    · exact hstop hserved
    · exact hstop hserved
    · exact ih hnodup hserved.tail
    · cases hderive : node.deriveEpochShares s ek operator e.epoch with
      | none => exact ih hnodup hserved.tail
      | some shares =>
        simp only
        split_ifs
        · exact ih hnodup hserved.tail
        · refine ih hnodup (hserved.serve hsizes (hshares _ _ hderive) fun e' he' heq => ?_)
          exact hnotin (List.mem_map.mpr ⟨e', he', heq⟩)

theorem deriveShares_length {qual : List Nat} {dealings : Nat → Option Dealing}
    (h : deriveShares X encPriv qual dealings points = some shares) :
    shares.length = points.length := by
  induction points generalizing shares with
  | nil =>
    cases h
    rfl
  | cons p ps ih =>
    obtain ⟨xi, -, hrest⟩ := Option.bind_eq_some_iff.mp h
    obtain ⟨rest, hps, hshares⟩ := Option.bind_eq_some_iff.mp hrest
    cases hshares
    exact congrArg Nat.succ (ih hps)

theorem myPoints_length {idx : Nat} (h : myPoints round operator = some (idx, points)) :
    points.length ≤ totalEvalPoints round.members := by
  unfold myPoints at h
  simp only at h
  split_ifs at h
  cases hm : memberByIndex round (memberIndexByOperator round.members operator) with
  | none => simp [hm] at h
  | some m =>
    simp only [hm] at h
    split_ifs at h
    cases h
    exact List.le_sum_of_mem (List.mem_map_of_mem (List.mem_of_find?_eq_some hm))

/-- A node owns no more points than the round of the epoch has. -/
theorem deriveEpochShares_length (hfits : ∀ ep r, s.rounds.get? ep = some r → r.Fits p)
    (h : node.deriveEpochShares s ek operator epoch = some shares) :
    shares.length ≤ p.effectiveShareBudget := by
  unfold deriveEpochShares at h
  cases hround : s.rounds.get? epoch with
  | none => simp [hround] at h
  | some round =>
    simp only [hround] at h
    split at h
    · rename_i idx points ak hpoints hkey
      split_ifs at h
      rw [deriveShares_length h]
      exact (myPoints_length hpoints).trans (hfits _ _ hround).points
    · cases h

theorem buildDecryptShares_served (hsizes : node.HonestSizes) (h : Nat)
    (hfits : ∀ ep r, s.rounds.get? ep = some r → r.Fits s.params) :
    Served s.params.voteExtShareCap s.params.effectiveShareBudget []
      (node.buildDecryptShares s ek operator h) := by
  refine serveCiphertexts_served hsizes (fun epoch shares => deriveEpochShares_length hfits) ?_
    (served_nil _ _ _)
  -- the store keeps one ciphertext under each height and sequence
  have hkeys : (s.encTxs.entries.map EncTx.key).Nodup := s.encTxs.nodup_keys
  have hpairs : (s.encTxs.entries.map fun e => (e.decryptHeight, e.seq)).Nodup := by
    refine List.Nodup.of_map (fun k : Nat × Nat => key2 k.1 k.2) ?_
    rw [List.map_map]
    exact hkeys
  exact hpairs.sublist (((List.take_sublist _ _).trans List.filter_sublist).map _)

/-! ### The whole extension -/

theorem overShared_eq_false {seen : List (Nat × Nat)} {shares : List VoteExtShare}
    (h : ∀ k, seen.count k + (shares.map ciphertextOf).count k ≤ limit) :
    overShared limit seen shares = false := by
  induction shares generalizing seen with
  | nil => rfl
  | cons sh rest ih =>
    have hmap : (sh :: rest).map ciphertextOf
        = (sh.decryptHeight, sh.seq) :: rest.map ciphertextOf := rfl
    rw [hmap] at h
    have hhead := h (sh.decryptHeight, sh.seq)
    rw [List.count_cons_self] at hhead
    unfold overShared
    simp only
    rw [if_neg (by omega)]
    refine ih fun k => ?_
    have hk := h k
    rw [List.count_cons] at hk ⊢
    omega

theorem extendComplaints_spec (hsizes : node.HonestSizes)
    (hfits : ∀ ep r, s.rounds.get? ep = some r → r.Fits p) :
    (node.extendComplaints ctx s ek operator).length ≤ p.effectiveMaxMembers
      ∧ ∀ c ∈ node.extendComplaints ctx s ek operator,
        proofBounded c.sharedPoint c.dleqProof = true := by
  unfold extendComplaints
  cases hlast : s.lastRound with
  | none => exact ⟨Nat.zero_le _, nofun⟩
  | some round =>
    simp only
    split_ifs
    · obtain ⟨hlen, hall⟩ :
          (node.buildDkgComplaints s ek operator round).length ≤ round.members.length ∧ _ :=
        buildDkgComplaints_spec hsizes round
      obtain ⟨hget, -, -⟩ := State.get?_of_lastRound hlast
      exact ⟨hlen.trans (hfits _ _ hget).members, hall⟩
    · exact ⟨Nat.zero_le _, nofun⟩

theorem extendDealing_bounded (hsizes : node.HonestSizes)
    (hfits : ∀ ep r, s.rounds.get? ep = some r → r.Fits p)
    (h : node.extendDealing ctx s operator = some d) : dealingBounded p d = true := by
  unfold extendDealing at h
  cases hlast : s.lastRound with
  | none => simp [hlast] at h
  | some round =>
    simp only [hlast] at h
    split_ifs at h
    obtain ⟨hget, -, -⟩ := State.get?_of_lastRound hlast
    exact buildDealing_bounded hsizes (hfits _ _ hget) h

theorem exists_extendVote (hactive : veActive ctx s.params = true) (hkey : node.encKey = some ek)
    (hop : node.myOperator ≠ []) :
    ∃ ve, node.extendVote ctx s = some ve
      ∧ ve.dealing = node.extendDealing ctx s node.myOperator := by
  simp [extendVote, hactive, hkey, hop]

/-- **The extension is bounded.** If the stored rounds fit the parameters, every number and every field
of a node's extension is within the bounds of its peers. -/
theorem extendVote_bounded (hsizes : node.HonestSizes)
    (hfits : ∀ ep r, s.rounds.get? ep = some r → r.Fits s.params) {ve : VoteExtension}
    (h : node.extendVote ctx s = some ve) :
    countsBounded s.params ve = true ∧ fieldsBounded s.params ve = true := by
  unfold extendVote at h
  split_ifs at h
  cases hkey : node.encKey with
  | none => simp [hkey] at h
  | some ek =>
    simp only [hkey] at h
    split_ifs at h with hop
    cases h
    have hserved : Served _ _ [] (node.buildDecryptShares s ek node.myOperator ctx.height) :=
      buildDecryptShares_served hsizes ctx.height hfits
    obtain ⟨hreports, hreport⟩ :
        (node.buildDkgPoisonReports s ek node.myOperator).length ≤ _ ∧ _ :=
      buildDkgPoisonReports_spec hsizes hfits
    obtain ⟨hcomplaints, hcomplaint⟩ :
        (node.extendComplaints ctx s ek node.myOperator).length ≤ _ ∧ _ :=
      extendComplaints_spec hsizes hfits
    constructor
    · refine decide_eq_true ⟨hserved.length, fun _ => overShared_eq_false fun k => ?_, hcomplaints,
        hreports⟩
      rw [List.count_nil, Nat.zero_add]
      exact hserved.perCiphertext k
    · refine decide_eq_true ⟨⟨hsizes.encKey ek hkey, ?_⟩, ?_, hserved.bounded, hcomplaint, hreport⟩
      · unfold signEncKeyPoP
        rw [if_neg hop]
        exact (hsizes.signature _ _).trans (by decide)
      · rw [Option.all_eq_true]
        exact fun d hd => extendDealing_bounded hsizes hfits hd

end Node

/-! ## Rounds within the caps -/

variable {X : External} {ctx : Ctx} {p : Params}

theorem stakeThreshold_le (ms : List RoundMember) (strict : Bool) :
    stakeThreshold ms strict ≤ max (totalEvalPoints ms) 1 := by
  unfold stakeThreshold
  simp only
  split_ifs
  · exact Nat.le_max_right _ _
  · exact (wrap32_le _).trans ((Nat.min_le_right _ _).trans (Nat.le_max_left _ _))
  all_goals
    refine (wrap32_le _).trans (max_le_max_right 1 ?_)
    exact Nat.min_le_right _ _

theorem totalEvalPoints_allocated {sha256 : Bytes → Bytes} {members out : List RoundMember}
    {budget epoch : Nat} (h : allocateEvalPoints sha256 members budget epoch = some out) :
    totalEvalPoints out = budget ∨ totalEvalPoints out = members.length := by
  by_cases hw : out.any RoundMember.weighted = true
  · exact .inl (allocateEvalPoints_weighted h hw).2
  · right
    have hlen : out.length = members.length := by
      simpa using congrArg List.length (allocateEvalPoints_plain h)
    rw [← hlen]
    apply totalEvalPoints_of_single
    intro m hm
    obtain ⟨total, -, h⟩ := Option.bind_eq_some_iff.mp h
    split_ifs at h
    · cases h
      obtain ⟨m', -, rfl⟩ := List.mem_map.mp hm
      rfl
    · -- a laid out committee is marked as weighted
      obtain ⟨seats, -, rfl⟩ := Option.map_eq_some_iff.mp h
      exact absurd (List.any_eq_true.mpr ⟨m, hm, weighted_of_mem_layOutPoints hm⟩) hw

theorem transparentMembers_length (ctx : Ctx) (s : State) (p : Params) :
    (transparentMembers ctx s p).length ≤ p.effectiveMaxMembers := by
  unfold transparentMembers
  simp only [State.length_numberMembers, List.length_map, List.length_insertionSort, List.length_take]
  omega

theorem Params.effectiveShareBudget_pos (p : Params) : 0 < p.effectiveShareBudget := by
  unfold Params.effectiveShareBudget
  split_ifs
  · decide
  · omega

theorem Params.validate_caps (h : p.validate X = .ok ()) (hdkg : p.dkgEnabled = true)
    (htransparent : p.dkgTransparent = true) :
    p.effectiveShareBudget ≤ 1024 ∧ 8 * p.effectiveMaxMembers ≤ p.effectiveShareBudget := by
  have hwindows := validate_dkg h hdkg
  refine ⟨effectiveShareBudget_le hwindows, ?_⟩
  simp only [validateDkgWindows, bind_unit_eq_ok, rejectIf_eq_ok] at hwindows
  obtain ⟨-, -, -, -, -, -, -, -, -, -, hmin, -⟩ := hwindows
  exact Nat.not_lt.mp fun hlt => hmin ⟨htransparent, hlt⟩

theorem DkgRound.Fits.opened {r r' : DkgRound} (h : r.Fits p) (hsame : r.opened = r'.opened) :
    r'.Fits p := by
  have hmembers : r.members = r'.members :=
    (congrArg DkgRound.members hsame : r.opened.members = _)
  have hthreshold : r.threshold = r'.threshold :=
    (congrArg DkgRound.threshold hsame : r.opened.threshold = _)
  exact ⟨hmembers ▸ h.members, hmembers ▸ h.points, hthreshold ▸ h.threshold⟩

namespace State

variable {s s' : State} {msg : MsgUpdateParams} {a : Action}

theorem Opened.fits {members : List RoundMember} {r : DkgRound} (h : Opened X ctx s p members s' r)
    (htransparent : p.dkgTransparent = true)
    (hcaps : 8 * p.effectiveMaxMembers ≤ p.effectiveShareBudget)
    (hmembers : members.length ≤ p.effectiveMaxMembers) : r.Fits p := by
  have hsized := h.sized
  rw [if_pos htransparent] at hsized
  obtain ⟨halloc, hthreshold⟩ := hsized
  have hlen : r.members.length = members.length := by
    simpa using congrArg List.length (allocateEvalPoints_plain halloc)
  have hpoints : totalEvalPoints r.members ≤ p.effectiveShareBudget := by
    cases totalEvalPoints_allocated halloc with
    | inl hall => exact hall.le
    | inr hplain => omega
  refine ⟨hlen.trans_le hmembers, hpoints, ?_⟩
  rw [hthreshold]
  exact (stakeThreshold_le _ _).trans (max_le hpoints p.effectiveShareBudget_pos)

/-! ## Rounds within the caps along a run -/

/-- The params are validated, and while the transparent path is on every stored round fits them. -/
structure RoundsFit (X : External) (s : State) : Prop where
  valid : s.params.validate X = .ok ()
  fits : s.params.dkgEnabled = true → s.params.dkgTransparent = true →
    ∀ ep r, s.rounds.get? ep = some r → r.Fits s.params

/-- A params update that leaves the transparent path on has to leave every stored round, the open
one and that of the serving key included, within the new caps. -/
def KeepsRoundsFit : Allow := fun s _ a =>
  match a with
  | .updateParams msg => ∀ p ∈ msg.params, p.dkgEnabled = true → p.dkgTransparent = true →
    ∀ r ∈ s.rounds.entries, r.Fits p
  | _ => True

instance (s : State) (ctx : Ctx) (a : Action) : Decidable (KeepsRoundsFit s ctx a) := by
  apply @Action.casesOn (fun a => Decidable (KeepsRoundsFit s ctx a)) a <;> intros <;>
    unfold KeepsRoundsFit <;> infer_instance

/-- The params an accepted update stores are those of the message, the one-way switches apart. -/
theorem updateParams_stored (h : s.updateParams X ctx msg = .ok s') :
    ∃ p ∈ msg.params, p.validate X = .ok () ∧ ∃ retain strict, s' = { s with
      params := { p with dkgRetainActiveDealings := retain, dkgStrictConcentration := strict } } := by
  simp only [updateParams, bind_unit_eq_ok] at h
  obtain ⟨-, h⟩ := h
  split at h
  · cases h
  · rename_i p hp
    simp only [bind_unit_eq_ok] at h
    obtain ⟨hvalid, -, -, h⟩ := h
    cases h
    exact ⟨p, hp, hvalid, _, _, rfl⟩

theorem step_params (ha : ∀ msg, a ≠ .updateParams msg) : (s.step X ctx a).params = s.params := by
  by_cases hshare : ∃ msg, a = .submitDecryptionShare msg
  · obtain ⟨msg, rfl⟩ := hshare
    simp only [step]
    cases hres : s.submitDecryptionShare ctx msg with
    | error err => rfl
    | ok s' =>
      obtain ⟨-, -, -, rfl⟩ := submitDecryptionShare_spec hres
      rfl
  · exact writes_params (w := ⟨True, True, True⟩) (step_writes s ha
      (fun msg h => hshare ⟨msg, h⟩) (.inl trivial) (.inl trivial) (.inl trivial))

theorem updateParams_roundsFit (hallow : KeepsRoundsFit s ctx (.updateParams msg))
    (hres : s.updateParams X ctx msg = .ok s') : s'.RoundsFit X := by
  obtain ⟨p, hp, hvalid, retain, strict, rfl⟩ := updateParams_stored hres
  refine ⟨hvalid, fun hdkg htransparent ep r hr => ?_⟩
  have hfits := hallow p hp hdkg htransparent r (RecStore.mem_of_get? hr)
  exact ⟨hfits.members, hfits.points, hfits.threshold⟩

/-- The round an end block opens fits the params in force, whether it is for the live committee or
for the stored one of a failed round. -/
theorem RoundsFit.endBlockDKG (h : s.RoundsFit X) : (s.endBlockDKG X ctx).RoundsFit X := by
  have hparams : (s.endBlockDKG X ctx).params = s.params :=
    step_params (a := .endBlockDKG) fun _ => nofun
  refine ⟨hparams ▸ h.valid, ?_⟩
  rw [hparams]
  intro hdkg htransparent ep r hr
  obtain ⟨-, hcaps⟩ := Params.validate_caps h.valid hdkg htransparent
  obtain ⟨r₀, hr₀, hsame⟩ | ⟨members, hopened, hcommittee⟩ := endBlockDKG_opened hr
  · exact (h.fits hdkg htransparent ep r₀ hr₀).opened hsame
  · refine hopened.fits htransparent hcaps ?_
    cases hcommittee with
    | inl hlive =>
      rw [hlive, activeMembers, if_pos htransparent]
      exact transparentMembers_length ctx s s.params
    | inr hretry =>
      obtain ⟨last, hlast, -, -, -, rfl⟩ := hretry
      exact (h.fits hdkg htransparent _ _ (get?_of_lastRound hlast).1).members

theorem RoundsFit.step (h : s.RoundsFit X) (hallow : KeepsRoundsFit s ctx a) :
    (s.step X ctx a).RoundsFit X := by
  have hrest : (∀ msg, a ≠ .updateParams msg) → a ≠ .endBlockDKG →
      (s.step X ctx a).RoundsFit X := by
    intro hupdate hend
    have hparams : (s.step X ctx a).params = s.params := step_params hupdate
    refine ⟨hparams ▸ h.valid, ?_⟩
    rw [hparams]
    exact fun hdkg htransparent ep r hr => h.fits hdkg htransparent ep r (step_rounds hend hr)
  cases a with
  | updateParams msg =>
    simp only [State.step]
    cases hres : s.updateParams X ctx msg with
    | error err => exact h
    | ok s' => exact updateParams_roundsFit hallow hres
  | endBlockDKG => exact h.endBlockDKG
  | _ => exact hrest (by simp) (by simp)

end State

/-- A genesis whose rounds fit its params. -/
def GenesisState.RoundsFit (gs : GenesisState) : Prop :=
  gs.params.dkgEnabled = true → gs.params.dkgTransparent = true →
    ∀ r ∈ gs.dkgRounds, r.Fits gs.params

theorem Chain.Reachable.roundsFit {gs : GenesisState} {h : Nat} {c : Chain}
    (hgenesis : gs.RoundsFit) (hreach : Chain.Reachable X State.KeepsRoundsFit gs h c) :
    c.state.RoundsFit X := by
  refine hreach.invariant (I := fun c => c.state.RoundsFit X) (fun s hs => ?_)
    fun c ctx a _ hallow hc => hc.step hallow
  have himported := State.initGenesis_imported hs
  refine ⟨himported.params ▸ himported.accepted.params, ?_⟩
  show s.params.dkgEnabled = true → s.params.dkgTransparent = true →
    ∀ ep r, s.rounds.get? ep = some r → r.Fits s.params
  rw [himported.params]
  intro hdkg htransparent ep r hr
  rw [himported.round] at hr
  exact hgenesis hdkg htransparent r (GenesisState.roundOf_spec hr).1

/-- **An honest extension is accepted.** In every run that keeps the stored rounds within the caps, what
a node attaches to its vote passes every check of a peer over the same state and height. -/
theorem honestVote_accepted {gs : GenesisState} {h : Nat} {c : Chain} (hgenesis : gs.RoundsFit)
    (hreach : Chain.Reachable X State.KeepsRoundsFit gs h c) {node : Node X}
    (hsizes : node.HonestSizes) {ctx : Ctx} {decode : Bytes → Option VoteExtension}
    (hdecode : ∀ ve, node.extendVote ctx c.state = some ve → decode ve.toJson = some ve) :
    verifyVoteExtension decode ctx c.state (node.voteExtension ctx c.state) = true := by
  have hrounds := hreach.roundsFit hgenesis
  unfold Node.voteExtension
  cases hve : node.extendVote ctx c.state with
  | none => rfl
  | some ve =>
    have hactive : veActive ctx c.state.params = true := by
      by_contra hoff
      rw [Node.extendVote, if_pos (Bool.not_eq_true _ |>.mp hoff)] at hve
      cases hve
    obtain ⟨hdkg, htransparent, -⟩ := of_decide_eq_true hactive
    obtain ⟨hbudget, hcaps⟩ := Params.validate_caps hrounds.valid hdkg htransparent
    rw [Option.map_some, Option.getD_some,
      verifyVoteExtension_iff hactive hbudget hcaps (hdecode ve hve)]
    exact Node.extendVote_bounded hsizes (hrounds.fits hdkg htransparent) hve

namespace Sample

def voterOperator : Bytes := bytesOf "cosmosvaloper1daagtyym56cme37jmh508lsfzs0j5d2qj2jjwe"

/-- The digests of the points a voter shares with the members, and of its proof of possession. -/
def voterDigests : List (Bytes × Bytes) :=
  [(point 5, beBytes 32 0xDFC25CE4967F2ECC7222D8CAD54A9001BB4BBDB008C43234D14678FDB1E80F1F),
   (point 10, beBytes 32 0x7C5390F1A98FF45BA7568617D38FF43BF66C3FC5BB3891D751F7BEFB887E1537),
   (point 15, beBytes 32 0x736510E0A2977668353B84EBB7FFA6B902E674A355038534E605D3B73EB0CF16),
   (point 35, beBytes 32 0x3725C50BAB9908983CD2819398874DB7A1B9B01D350DD84A1DBC82D7439E841F),
   (bytesOf "LIMO-DKG-ENCKEY-POP\x00" ++ voterOperator,
    beBytes 32 0xEF54AE610D6D09D92FB7FF12325C943148215443165E2AB1409232C1F10284A7)]

def voterPrimitives : External :=
  { crewPrimitives with
    sha256 := fun b =>
      ((voterDigests.find? (fun d => d.1 = b)).map Prod.snd).getD (crewPrimitives.sha256 b) }

/-- The draws of a voter: shares are sealed with `5`, those of the fourth member with `2`. -/
def voterDraw (i : Nat) : Nat := if 32 ≤ i ∧ i < 37 then 2 else 5

theorem voterDraw_ne_zero (i : Nat) : voterPrimitives.scalarIsZero (voterDraw i) = false := by
  show decide (voterDraw i = 0) = false
  unfold voterDraw
  split_ifs <;> rfl

/-- The first of the crew, over an AES-256-GCM and a signature scheme. -/
def voter (gcmSeal : Bytes → Bytes → Bytes → Bytes) (ecdsaSign : Nat → Bytes → Bytes) :
    Node voterPrimitives where
  encKey := some ⟨(1 : Nat), point 1⟩
  myOperator := voterOperator
  ecdsaSign := ecdsaSign
  deriveDLEQNonce := fun _ _ _ _ _ => (1 : Nat)
  gcmSeal := gcmSeal
  coeff := fun _ => ⟨(3 : Nat), rfl⟩
  sealRand := fun i => (⟨voterDraw i, voterDraw_ne_zero i⟩, ⟨beBytes 12 0, rfl⟩)
  dkgPoisonRpts := fun _ => none

/-- The sizes of AES-256-GCM and of a signature. -/
structure CipherSizes (gcmSeal : Bytes → Bytes → Bytes → Bytes) (ecdsaSign : Nat → Bytes → Bytes) :
    Prop where
  sealed : ∀ key nonce msg, (gcmSeal key nonce msg).length = msg.length + 16
  signature : ∀ a digest, (ecdsaSign a digest).length ≤ 72

variable {gcmSeal : Bytes → Bytes → Bytes → Bytes} {ecdsaSign : Nat → Bytes → Bytes}

theorem voter_honestSizes (h : CipherSizes gcmSeal ecdsaSign) :
    (voter gcmSeal ecdsaSign).HonestSizes where
  point := by
    intro (P : Nat)
    show (((points.find? (fun p => p.1 = P)).map Prod.snd).getD []).length ≤ 33
    cases hfind : points.find? (fun p => p.1 = P) with
    | none => exact Nat.zero_le _
    | some p =>
      have hall : ∀ p ∈ points, p.2.length ≤ 33 := by decide +kernel
      exact hall p (List.mem_of_find?_eq_some hfind)
  scalar a := (length_beBytes 32 a).le
  sealed key nonce msg := (h.sealed key nonce msg).le
  signature := h.signature
  encKey := by
    intro ek hek
    cases hek
    show (point 1).length ≤ 33
    decide +kernel

/-- Block 12 is inside the deal window of the crew's first round, which has 40 points. -/
def VoterDeals (s : State) (round : DkgRound) : Prop :=
  Node.Deals voterPrimitives (crewBlock 12 (by decide)) s voterOperator round
    ∧ totalEvalPoints round.members = 40

instance (s : State) (round : DkgRound) : Decidable (VoterDeals s round) := by
  unfold VoterDeals
  infer_instance

theorem voter_deals (h : CipherSizes gcmSeal ecdsaSign) {s : State} {round : DkgRound}
    (hactive : veActive (crewBlock 12 (by decide)) s.params = true) (hdeals : VoterDeals s round) :
    ∃ ve d, (voter gcmSeal ecdsaSign).extendVote (crewBlock 12 (by decide)) s = some ve
      ∧ ve.dealing = some d ∧ d.encShares.length = 40 := by
  obtain ⟨d, hd, hlen⟩ := Node.exists_extendDealing (voter_honestSizes h) hdeals.1
  obtain ⟨ve, hve, hdealing⟩ :
      ∃ ve, (voter gcmSeal ecdsaSign).extendVote (crewBlock 12 (by decide)) s = some ve ∧ _ :=
    Node.exists_extendVote hactive rfl (show voterOperator ≠ [] by decide +kernel)
  exact ⟨ve, d, hve, hdealing.trans hd, hlen.trans hdeals.2⟩

end Sample

open Sample

/-- The first of the crew deals to a round that fits: 40 sealed shares under a budget of 40. -/
theorem honestVote_accepted_crew : ∃ c,
    Chain.Reachable voterPrimitives State.KeepsRoundsFit crewGenesis 9 c
    ∧ ∀ gcmSeal ecdsaSign, CipherSizes gcmSeal ecdsaSign →
      (∃ ve d, (voter gcmSeal ecdsaSign).extendVote (crewBlock 12 (by decide)) c.state
          = some ve ∧ ve.dealing = some d ∧ d.encShares.length = 40)
      ∧ verifyVoteExtension
          (fun _ => (voter gcmSeal ecdsaSign).extendVote
            (crewBlock 12 (by decide)) c.state)
          (crewBlock 12 (by decide)) c.state
          ((voter gcmSeal ecdsaSign).voteExtension (crewBlock 12 (by decide)) c.state)
        = true := by
  obtain ⟨c, hreach, hactive, round, -, hdeals⟩ : ∃ c,
      Chain.Reachable voterPrimitives State.KeepsRoundsFit crewGenesis 9 c
      ∧ veActive (crewBlock 12 (by decide)) c.state.params = true
      ∧ ∃ round ∈ c.state.lastRound, VoterDeals c.state round :=
    Chain.exists_reachable [(crewBlock 10 (by decide), .endBlockDKG)] (by decide +kernel)
  refine ⟨c, hreach, fun gcmSeal ecdsaSign hsizes => ⟨voter_deals hsizes hactive hdeals, ?_⟩⟩
  refine honestVote_accepted ?_ hreach (voter_honestSizes hsizes) fun ve hve => hve
  intro _ _
  decide +kernel

/-- Governance lowers the budget to 32 while the round is open. Its members still deal 40 shares, and
their peers reject the extension. -/
theorem honestVote_rejected : ∃ c,
    Chain.Reachable voterPrimitives (fun _ _ _ => True) crewGenesis 9 c
    ∧ ∀ gcmSeal ecdsaSign, CipherSizes gcmSeal ecdsaSign →
      ∀ decode : Bytes → Option VoteExtension,
        (∀ ve, (voter gcmSeal ecdsaSign).extendVote (crewBlock 12 (by decide)) c.state
          = some ve → decode ve.toJson = some ve) →
        verifyVoteExtension decode (crewBlock 12 (by decide)) c.state
          ((voter gcmSeal ecdsaSign).voteExtension (crewBlock 12 (by decide)) c.state)
        = false := by
  obtain ⟨c, hreach, hactive, ⟨hbudget, hmembers⟩, round, -, hdeals⟩ : ∃ c,
      Chain.Reachable voterPrimitives (fun _ _ _ => True) crewGenesis 9 c
      ∧ veActive (crewBlock 12 (by decide)) c.state.params = true
      ∧ (c.state.params.effectiveShareBudget = 32 ∧ c.state.params.effectiveMaxMembers = 4)
      ∧ ∃ round ∈ c.state.lastRound, VoterDeals c.state round :=
    Chain.exists_reachable
      [(crewBlock 10 (by decide), .endBlockDKG),
       (crewBlock 11 (by decide), .updateParams cutCrew)]
      (by decide +kernel)
  refine ⟨c, hreach, fun gcmSeal ecdsaSign hsizes decode hdecode => ?_⟩
  obtain ⟨ve, d, hve, hd, hlen⟩ := voter_deals hsizes hactive hdeals
  rw [Node.voteExtension, hve, Option.map_some, Option.getD_some, ← Bool.not_eq_true,
    verifyVoteExtension_iff hactive (by omega) (by omega) (hdecode ve hve)]
  rintro ⟨-, hfields⟩
  -- the dealing is sized by the round, the bound by the params
  obtain ⟨-, hdealing, -⟩ := of_decide_eq_true hfields
  rw [hd] at hdealing
  obtain ⟨-, hcount, -⟩ := of_decide_eq_true hdealing
  omega

end EncMempool
