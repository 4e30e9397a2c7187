import Limonata.EncMempool.ExtendVote
import Limonata.EncMempool.Migration
import Limonata.Lib.Changes
import Limonata.Lib.Sigma

/-!
# x/encmempool — justified complaints

`buildDkgComplaints` and `VerifyJustifiedComplaint` are separate code that has to judge a dealing alike:
the node opens the share sealed to it with its own secret, the chain with the point the complaint reveals.
A proof of that point binds it to the accuser's key and to the disputed evaluation point, so

* no complaint convicts a dealer of a share that it sealed as committed (`judgeComplaint_honest`),
* the complaint a node builds about a bad share convicts (`accuse_convicts`), for the first point the
  dealer mistreats as for any other (`firstComplaint_spec`).
-/

namespace EncMempool

open Machine State

section Records

variable {X : External}
variable {encPub operator : Bytes} {dealing : Dealing} {c : VoteExtComplaint} {round : DkgRound}
  {s : State} {against idx : Nat}

/-! ## What becomes of a complaint -/

theorem judgeComplaint_missing
    (hfind : dealing.encShares.find? (fun sh => sh.memberIndex = c.evalPoint) = none) :
    (judgeComplaint X encPub dealing c).1 = true := by
  unfold judgeComplaint
  rw [hfind]

theorem judgeComplaint_convicts
    {enc : DkgStoredEncShare}
    (hfind : dealing.encShares.find? (fun sh => sh.memberIndex = c.evalPoint) = some enc)
    (hverdict : verifyJustifiedComplaint X c.evalPoint encPub dealing.commitments enc.a enc.nonce
      enc.body c.sharedPoint c.dleqProof = (true, true)) :
    (judgeComplaint X encPub dealing c).1 = true := by
  unfold judgeComplaint
  rw [hfind]
  simp only [hverdict, Bool.and_self]

theorem disputedPoint_eq {accuser m : RoundMember}
    (hidx : memberIndexByOperator round.members operator ≠ 0)
    (haccuser : memberByIndex round (memberIndexByOperator round.members operator) = some accuser)
    (hm : m ∈ round.members) (hagainst : c.against = m.index) (hzero : m.index ≠ 0)
    (hother : m.index ≠ memberIndexByOperator round.members operator)
    (howns : c.evalPoint ∈ accuser.ownedEvalPoints) :
    disputedPoint round operator c
      = some (memberIndexByOperator round.members operator, accuser.encPubKey) := by
  have hsome : (memberByIndex round m.index).isSome = true :=
    List.find?_isSome.mpr ⟨m, hm, by simp⟩
  have hmay := (RoundMember.ownsEvalPoint_iff accuser c.evalPoint).mpr howns
  have hnone : (memberByIndex round m.index).isNone = false := by
    rw [Option.isNone_eq_false_iff, hsome]
  simp only [disputedPoint, hagainst, hidx, hzero, hother, or_self, if_false, hnone, haccuser,
    hmay, if_true, Bool.false_eq_true]

/-- The operator may make the complaint, and the stored dealing convicts. -/
def Justified (X : External) (s : State) (round : DkgRound) (operator : Bytes)
    (c : VoteExtComplaint) : Prop :=
  c.epoch = round.epoch ∧ ∃ encPub dealing,
    disputedPoint round operator c
        = some (memberIndexByOperator round.members operator, encPub)
      ∧ s.dealings.get? (key2 round.epoch c.against) = some dealing
      ∧ (judgeComplaint X encPub dealing c).1 = true

/-- A justified complaint is stored, unless its accuser burned the point before, and burns nothing
itself. -/
theorem Justified.ingest
    (h : Justified X s round operator c)
    (hfresh : s.rejectedComplaints.has (key4 round.epoch c.against
      (memberIndexByOperator round.members operator) c.evalPoint) = false) :
    (s.ingestComplaintFromVE X round operator c).state.complaints.has
        (key3 round.epoch c.against (memberIndexByOperator round.members operator)) = true
      ∧ (s.ingestComplaintFromVE X round operator c).state.rejectedComplaints
        = s.rejectedComplaints := by
  obtain ⟨hepoch, encPub, dealing, hdisputed, hdealing, hjudge⟩ := h
  unfold ingestComplaintFromVE
  rw [if_neg (not_not.mpr hepoch), hdisputed]
  simp only
  split_ifs with hstored hburnt
  · exact ⟨hstored, rfl⟩
  · rw [hfresh] at hburnt
    cases hburnt
  · simp only [hdealing, hjudge, if_true]
    exact ⟨(RecStore.has_put _ _ _).mpr (.inl rfl), rfl⟩

theorem finalizeResult_excludes {res : PublicResult}
    (hstored : s.complaints.has (key3 round.epoch against idx) = true)
    (hres : s.finalizeResult X round = .ok res) : against ∉ res.qual := by
  obtain ⟨rec, hrec, hkey⟩ := RecStore.exists_mem_of_has hstored
  obtain ⟨hepoch, hagainst, -⟩ := key3_inj.mp hkey
  have haccused : against ∈ s.accused round :=
    List.mem_map.mpr ⟨rec, List.mem_filter.mpr ⟨hrec, decide_eq_true hepoch⟩, hagainst⟩
  obtain ⟨hqual, -⟩ := finalizePublicWeighted_spec hres
  intro hmem
  rw [hqual, List.mem_filter] at hmem
  have hclear : (!(s.accused round).contains against) = true := (Bool.and_eq_true_iff.mp hmem.2).2
  rw [List.contains_iff_mem.mpr haccused] at hclear
  cases hclear

theorem finalizeRound_excludes {ak : ActiveThresholdKey}
    (hstored : s.complaints.has (key3 round.epoch against idx) = true)
    (hkey : (s.finalizeRound X round).activeKeys.get? round.epoch = some ak) :
    s.activeKeys.get? round.epoch = some ak ∨ against ∉ ak.qual := by
  have houtcome := congrArg Prod.fst (finalizeOutcome_eq (X := X) s round)
  replace houtcome := hkey.symm.trans houtcome
  cases hres : s.finalizeResult X round with
  | error err =>
    rw [hres] at houtcome
    exact .inl houtcome.symm
  | ok res =>
    rw [hres] at houtcome
    obtain rfl := Option.some.inj houtcome
    exact .inr (finalizeResult_excludes hstored hres)

end Records

section Verdict

variable {X : External} [Field X.Scalar] [AddCommGroup X.Point] [Module X.Scalar X.Point]
  {G : X.Point} {gcmSeal : Bytes → Bytes → Bytes → Bytes}
variable {x share encPriv : X.Scalar} {ctA encPub : Bytes} {A : X.Point} {p : Nat}
  {coeffs : List X.Scalar} {commitments : List X.Point} {enc : DkgStoredEncShare}
  {points : List Nat} {dealing : Dealing}

/-! ## The share proofs -/

/-- Only the holder of the secret of `Y` proves a partial decryption under `Y`. -/
def ProofsSound (X : External) [Field X.Scalar] [AddCommGroup X.Point] [Module X.Scalar X.Point]
    (G : X.Point) : Prop :=
  ∀ ctA A index D Y proof, X.parsePubKey ctA = some A →
    verifyDecryptShare X ctA index D Y proof = true →
    ∃ x : X.Scalar, Y = x • G ∧ X.parsePubKey D = some (x • A)

/-- No encoding parses to the point at infinity. -/
def ParsesAffine (X : External) [AddCommGroup X.Point] : Prop :=
  ∀ b P, X.parsePubKey b = some P → P ≠ 0

variable (hX : X.IsCurve G)

include hX

theorem parse_marshalDLEQProof (proof : DLEQProof X) :
    parseDLEQProof X (Node.marshalDLEQProof proof) = some proof := by
  obtain ⟨hlenC, hsetC⟩ := hX.scalarBytes proof.c
  obtain ⟨hlenZ, hsetZ⟩ := hX.scalarBytes proof.z
  have hlen : (Node.marshalDLEQProof proof).length = 64 := by
    rw [Node.marshalDLEQProof, List.length_append, hlenC, hlenZ]
  have htake : (Node.marshalDLEQProof proof).take 32 = X.scalarBytes proof.c :=
    List.take_left' hlenC
  have hdrop : (Node.marshalDLEQProof proof).drop 32 = X.scalarBytes proof.z :=
    List.drop_left' hlenC
  simp [parseDLEQProof, hlen, htake, hdrop, hsetC, hsetZ]

/-- Whatever the nonce, a response to the challenge with the secret of the key verifies under it. -/
theorem verifyDecryptShare_respond {D : Bytes} (index : Nat) (hA : X.parsePubKey ctA = some A)
    (hD : X.parsePubKey D = some (x • A)) (k : X.Scalar) :
    verifyDecryptShare X ctA index D (x • G)
      ⟨dleqChallenge X index A (x • A) (x • G) (k • G) (k • A),
        k + dleqChallenge X index A (x • A) (x • G) (k • G) (k • A) * x⟩ = true := by
  simp only [verifyDecryptShare, hA, hD, hX.addPoint, hX.baseMul, hX.mulPoint, hX.scalarNegate,
    Sigma.reconstruct, decide_true]

theorem proveDecryptShare_verifies (node : Node X) (p : Nat) (hA : X.parsePubKey ctA = some A)
    (hne : x • A ≠ 0) :
    ∃ proof, node.proveDecryptShare ⟨p, x⟩ ctA = some (X.serializeCompressed (x • A), proof)
      ∧ verifyDecryptShare X ctA p (X.serializeCompressed (x • A)) (x • G) proof = true := by
  have hD : X.parsePubKey (X.serializeCompressed (x • A)) = some (x • A) := hX.encodes _ hne
  refine ⟨_, ?_, verifyDecryptShare_respond hX p hA hD (node.deriveDLEQNonce p x A (x • A) (x • G))⟩
  simp only [Node.proveDecryptShare, computeShare, hA, hX.mulPoint, hX.baseMul, hX.scalarAdd,
    hX.scalarMul, Option.map_some, Option.bind_eq_bind, Option.bind_some, hD]

/-! ## The verdict on one share -/

theorem sharePubKey_map_baseMul (p : Nat) (coeffs : List X.Scalar) :
    sharePubKey X p (coeffs.map X.baseMul) = (evalPoly X p coeffs).map X.baseMul := by
  induction coeffs with
  | nil => rfl
  | cons a as ih =>
    rw [List.map_cons, sharePubKey, evalPoly, ih]
    cases evalPoly X p as with
    | none => rfl
    | some acc =>
      -- `p (acc G) + a G = (acc p + a) G`
      simp only [Option.map_some, hX.addPoint, hX.mulPoint, hX.baseMul, hX.scalarAdd, hX.scalarMul]
      rw [add_smul, mul_comm, mul_smul]

theorem verifyShare_of_evalPoly (hshare : evalPoly X p coeffs = some share) :
    verifyShare X (coeffs.map X.baseMul) p share = true := by
  simp [verifyShare, sharePubKey_map_baseMul hX, hshare]

/-- **No framing.** Whatever point and proof a complaint carries, it does not convict a dealer of the
share it sealed as committed. -/
theorem verifyJustifiedComplaint_honest (hseal : OpensSealed X gcmSeal) (hsound : ProofsSound X G)
    {r : RandScalar X} {nonce : Nonce} {ct : Ciphertext} {commitments : List Bytes}
    (hshare : evalPoly X p coeffs = some share)
    (hct : encryptShareTo X gcmSeal encPub share r nonce = some ct)
    (hcomm : parseCommitmentPoints X commitments = some (coeffs.map X.baseMul))
    (sharedPoint dleqProof : Bytes) :
    verifyJustifiedComplaint X p encPub commitments ct.a ct.nonce ct.body sharedPoint dleqProof
      ≠ (true, true) := by
  obtain ⟨hA, Y, hY, hopen⟩ := encryptWithR_spec hX hseal hct
  have hnonce : ct.nonce.length = nonceSize := by
    obtain ⟨-, -, rfl⟩ := Option.map_eq_some_iff.mp hct
    exact nonce.2
  cases hproof : parseDLEQProof X dleqProof with
  | none => simp [verifyJustifiedComplaint, hA, hnonce, hY, hproof]
  | some proof =>
    cases hverify : verifyDecryptShare X ct.a p sharedPoint Y proof with
    | false => simp [verifyJustifiedComplaint, hA, hnonce, hY, hproof, hverify]
    | true =>
      -- the proved point is the secret both sides share, so it opens the sealed value
      obtain ⟨x, rfl, hS⟩ := hsound _ _ _ _ _ _ hA hverify
      rw [smul_comm] at hS
      obtain ⟨hlen, hset⟩ := hX.scalarBytes share
      simp [verifyJustifiedComplaint, hA, hnonce, hY, hproof, hverify, hS, hopen, hlen, hcomm, hset,
        verifyShare_of_evalPoly hX hshare]

/-- The share sealed at `p` has a point to open it with, but does not open to the committed value:
not at all, not to a canonical scalar, or to one that fails the Feldman check. -/
def BadShare (X : External) (encPriv : X.Scalar) (commitments : List X.Point) (p : Nat)
    (enc : DkgStoredEncShare) : Prop :=
  ∃ A, X.parsePubKey enc.a = some A
    ∧ ∀ plain, decrypt X (X.mulPoint encPriv A) enc.nonce enc.body = some plain →
      plain.length = 32 → (X.scalarSetBytes plain).2 = false →
      verifyShare X commitments p (X.scalarSetBytes plain).1 = false

theorem decryptShareFrom_eq (ct : Ciphertext) (hA : X.parsePubKey ct.a = some A)
    (hne : encPriv • A ≠ 0) :
    decryptShareFrom X encPriv p ct = (decrypt X (encPriv • A) ct.nonce ct.body).bind fun plain =>
      if plain.length ≠ 32 then none
      else if (X.scalarSetBytes plain).2 then none else some (X.scalarSetBytes plain).1 := by
  simp [decryptShareFrom, computeShare, hA, hX.mulPoint, hX.encodes _ hne]

theorem badShare_iff (hA : X.parsePubKey enc.a = some A) (hne : encPriv • A ≠ 0) :
    (decryptShareFrom X encPriv p ⟨enc.a, enc.nonce, enc.body⟩).any
        (fun share => verifyShare X commitments p share) = false
      ↔ BadShare X encPriv commitments p enc := by
  rw [decryptShareFrom_eq hX ⟨enc.a, enc.nonce, enc.body⟩ hA hne]
  simp only [BadShare, hA, Option.some.injEq, exists_eq_left', hX.mulPoint]
  cases decrypt X (encPriv • A) enc.nonce enc.body with
  | none => simp
  | some plain =>
    by_cases hlen : plain.length = 32
    · cases hset : (X.scalarSetBytes plain).2 <;> simp [hlen, hset]
    · simp [hlen]

/-- **No escape.** The complaint a node builds about a bad share convicts under the node's key. -/
theorem accuse_convicts (haffine : ParsesAffine X) (node : Node X) {commitments : List Bytes}
    {points : List X.Point} (epoch against : Nat) (hpub : X.parsePubKey encPub = some (encPriv • G))
    (hcomm : parseCommitmentPoints X commitments = some points)
    (hbad : BadShare X encPriv points p enc) :
    ∃ c, node.accuse encPriv epoch against p enc.a = some c
      ∧ c.epoch = epoch ∧ c.against = against ∧ c.evalPoint = p
      ∧ verifyJustifiedComplaint X p encPub commitments enc.a enc.nonce enc.body c.sharedPoint
          c.dleqProof = (true, true) := by
  obtain ⟨A, hA, hopens⟩ := hbad
  have hpriv : encPriv ≠ 0 := fun h => haffine _ _ hpub (by rw [h, zero_smul])
  have hne : encPriv • A ≠ 0 := smul_ne_zero hpriv (haffine _ _ hA)
  obtain ⟨proof, hprove, hverify⟩ := proveDecryptShare_verifies hX node p hA hne
  refine ⟨_, by rw [Node.accuse, hprove]; rfl, rfl, rfl, rfl, ?_⟩
  rw [hX.mulPoint] at hopens
  have hS := hX.encodes _ hne
  -- the chain opens the share with the proved point and takes the same checks
  by_cases hnonce : enc.nonce.length = nonceSize
  · simp only [verifyJustifiedComplaint, hA, hnonce, hpub, parse_marshalDLEQProof hX, hverify, hS]
    cases hopen : decrypt X (encPriv • A) enc.nonce enc.body with
    | none => simp
    | some plain =>
      by_cases hlen : plain.length = 32
      · cases hset : (X.scalarSetBytes plain).2 with
        | true => simp [hlen, hcomm, hset]
        | false => simp [hlen, hcomm, hset, hopens plain hopen hlen hset]
      · simp [hlen]
  · simp [verifyJustifiedComplaint, hA, hnonce]

/-! ## The complaints a node builds -/

theorem firstComplaint_convicts (haffine : ParsesAffine X) (node : Node X) {epoch against : Nat}
    {c : VoteExtComplaint} (hpub : X.parsePubKey encPub = some (encPriv • G))
    (hcomm : parseCommitmentPoints X dealing.commitments = some commitments)
    (h : node.firstComplaint encPriv epoch against dealing commitments points = some c) :
    c.epoch = epoch ∧ c.against = against ∧ c.evalPoint ∈ points
      ∧ (judgeComplaint X encPub dealing c).1 = true := by
  induction points with
  | nil => cases h
  | cons p ps ih =>
    -- a later point is a point of the list as well
    have hlater (hps : node.firstComplaint encPriv epoch against dealing commitments ps = some c) :=
      (ih hps).imp_right fun hrest => hrest.imp_right fun hrest =>
        hrest.imp_left (List.mem_cons_of_mem p)
    unfold Node.firstComplaint at h
    cases hfind : dealing.encShares.find? (fun e => e.memberIndex = p) with
    | none =>
      rw [hfind] at h
      obtain rfl := Option.some.inj h
      exact ⟨rfl, rfl, List.mem_cons_self, judgeComplaint_missing hfind⟩
    | some enc =>
      simp only [hfind] at h
      split_ifs at h with hgood
      · exact hlater h
      cases haccuse : node.accuse encPriv epoch against p enc.a with
      | none =>
        rw [haccuse] at h
        exact hlater h
      | some built =>
        rw [haccuse] at h
        obtain rfl := Option.some.inj h
        -- a complaint could be proved, so the point of the share parses
        obtain ⟨A, hA⟩ : ∃ A, X.parsePubKey enc.a = some A := by
          cases hparse : X.parsePubKey enc.a with
          | none => simp [Node.accuse, Node.proveDecryptShare, computeShare, hparse] at haccuse
          | some A => exact ⟨A, rfl⟩
        have hpriv : encPriv ≠ 0 := fun h => haffine _ _ hpub (by rw [h, zero_smul])
        have hbad := (badShare_iff hX hA (smul_ne_zero hpriv (haffine _ _ hA))).mp
          (Bool.eq_false_iff.mpr hgood)
        obtain ⟨c', hc', hepoch, hagainst, hpoint, hverdict⟩ :=
          accuse_convicts hX haffine node epoch against hpub hcomm hbad
        obtain rfl := Option.some.inj (haccuse.symm.trans hc')
        subst hpoint
        exact ⟨hepoch, hagainst, List.mem_cons_self, judgeComplaint_convicts hfind hverdict⟩

theorem firstComplaint_isSome (haffine : ParsesAffine X) (node : Node X) (epoch against : Nat)
    (hpub : X.parsePubKey encPub = some (encPriv • G))
    (hcomm : parseCommitmentPoints X dealing.commitments = some commitments) (hp : p ∈ points)
    (hfind : dealing.encShares.find? (fun e => e.memberIndex = p) = some enc)
    (hbad : BadShare X encPriv commitments p enc) :
    ∃ c, node.firstComplaint encPriv epoch against dealing commitments points = some c := by
  induction points with
  | nil => cases hp
  | cons q qs ih =>
    unfold Node.firstComplaint
    cases hq : dealing.encShares.find? (fun e => e.memberIndex = q) with
    | none => exact ⟨_, rfl⟩
    | some encQ =>
      simp only
      cases List.mem_cons.mp hp with
      | inl heq =>
        obtain rfl := heq
        obtain rfl := Option.some.inj (hfind.symm.trans hq)
        obtain ⟨c, hc, -⟩ := accuse_convicts hX haffine node epoch against hpub hcomm hbad
        have ⟨A, hA, _⟩ := hbad
        have hpriv : encPriv ≠ 0 := fun h => haffine _ _ hpub (by rw [h, zero_smul])
        have hcaught := (badShare_iff hX hA (smul_ne_zero hpriv (haffine _ _ hA))).mpr hbad
        exact ⟨c, by rw [if_neg (by rw [hcaught]; exact Bool.false_ne_true), hc]⟩
      | inr htail =>
        -- whatever stands at `q`, the search goes on or has ended with a complaint
        obtain ⟨c, hc⟩ := ih htail
        split_ifs
        · exact ⟨c, hc⟩
        · cases node.accuse encPriv epoch against q encQ.a with
          | none => exact ⟨c, hc⟩
          | some built => exact ⟨built, rfl⟩

end Verdict

/-! ## A scheme with these properties -/

/-- The logarithm an encoding of the group of the curve's order writes out. -/
def logOf (b : Bytes) : ZMod groupOrder := natOfBytes (b.drop 1)

/-- The `i`-th point of a challenge's hash input, after its tag and index. -/
def challengePart (b : Bytes) (i : Nat) : ZMod groupOrder := logOf ((b.drop (39 + 33 * i)).take 33)

/-- A digest that answers a false statement with a challenge its commitments do not fit. -/
def challengeDigest (b : Bytes) : Bytes :=
  let A := challengePart b 0
  let D := challengePart b 1
  let Y := challengePart b 2
  let T1 := challengePart b 3
  let T2 := challengePart b 4
  let c : ZMod groupOrder := if D = Y * A then 0 else (T2 - A * T1) / (A * Y - D) + 1
  beBytes 32 c.val

/-- The group of the curve's order, without an encoding of the identity and with that digest. -/
def soundScheme : External :=
  { External.ofGroup {} with
    parsePubKey := fun b => ((External.ofGroup {}).parsePubKey b).filter (fun P => P ≠ 0)
    sha256 := challengeDigest }

section SoundScheme

instance : Field soundScheme.Scalar := inferInstanceAs (Field (ZMod groupOrder))

instance : AddCommGroup soundScheme.Point := inferInstanceAs (AddCommGroup (ZMod groupOrder))

instance : Module soundScheme.Scalar soundScheme.Point :=
  inferInstanceAs (Module (ZMod groupOrder) (ZMod groupOrder))

instance : DecidableEq soundScheme.Point := inferInstanceAs (DecidableEq (ZMod groupOrder))

def soundBase : soundScheme.Point := (1 : ZMod groupOrder)

theorem noTables_wellFormed : ({} : Tables).WellFormed where
  encodings := List.nodup_nil
  points := by simp
  boxes := List.nodup_nil
  tags := by simp

theorem soundScheme_isCurve : soundScheme.IsCurve soundBase :=
  have h := External.ofGroup_isCurve noTables_wellFormed
  { addPoint := h.addPoint, mulPoint := h.mulPoint, baseMul := h.baseMul, base_ne := h.base_ne
    scalarOfUint32 := h.scalarOfUint32, index_inj := h.index_inj, scalarAdd := h.scalarAdd
    scalarMul := h.scalarMul, scalarNegate := h.scalarNegate, scalarInverse := h.scalarInverse
    scalarIsZero := h.scalarIsZero, scalarBytes := h.scalarBytes
    encodes := fun P hP => Option.filter_eq_some_iff.mpr
      ⟨h.encodes P hP, decide_eq_true (p := (P : ZMod groupOrder) ≠ 0) hP⟩
    identity := congrArg (Option.filter fun P : ZMod groupOrder => P ≠ 0) h.identity }

theorem soundScheme_opens : OpensSealed soundScheme ({} : Tables).gcmSeal :=
  fun key nonce msg _ => noTables_wellFormed.opens key nonce msg

theorem soundScheme_affine : ParsesAffine soundScheme := by
  intro b P hP
  have hne := (Option.filter_eq_some_iff.mp hP).2
  exact decide_eq_true_iff.mp hne

/-- The encoding of a point without a table. -/
def encodePoint (P : ZMod groupOrder) : Bytes :=
  if P = 0 then beBytes 33 (2 * 256 ^ 32) else 5 :: beBytes 32 P.val

theorem length_encodePoint (P : ZMod groupOrder) : (encodePoint P).length = 33 := by
  unfold encodePoint
  split_ifs <;> simp

theorem logOf_encodePoint (P : ZMod groupOrder) : logOf (encodePoint P) = P := by
  unfold logOf encodePoint
  split_ifs with hP
  · rw [hP, show natOfBytes ((beBytes 33 (2 * 256 ^ 32)).drop 1) = 0 by decide, Nat.cast_zero]
  · rw [List.drop_one, List.tail_cons, natOfBytes_groupOrder, ZMod.natCast_zmod_val]

theorem challengePart_eq {head : Bytes} (hhead : head.length = 39) {ps : List (ZMod groupOrder)}
    {i : Nat} {P : ZMod groupOrder} (hP : ps[i]? = some P) :
    challengePart (head ++ ps.flatMap encodePoint) i = P := by
  rw [challengePart, ← List.drop_drop, List.drop_left' hhead]
  -- each point before the `i`-th takes 33 bytes off
  induction ps generalizing i with
  | nil => simp at hP
  | cons Q qs ih =>
    rw [List.flatMap_cons]
    cases i with
    | zero =>
      obtain rfl : Q = P := by simpa using hP
      rw [Nat.mul_zero, List.drop_zero, List.take_left' (length_encodePoint Q), logOf_encodePoint]
    | succ i =>
      rw [Nat.mul_succ, Nat.add_comm, ← List.drop_drop, List.drop_left' (length_encodePoint Q)]
      exact ih (by simpa using hP)

theorem dleqChallenge_soundScheme (index : Nat) (A D Y T1 T2 : ZMod groupOrder) :
    dleqChallenge soundScheme index A D Y T1 T2
      = if D = Y * A then 0 else (T2 - A * T1) / (A * Y - D) + 1 := by
  have hhead : (bytesOf "limonata/encmempool/dkg/dleq/v1" ++ be64 index).length = 39 := by
    rw [List.length_append, be64, length_beBytes]
    decide +kernel
  have hinput : bytesOf "limonata/encmempool/dkg/dleq/v1" ++ be64 index ++ encodePoint A
      ++ encodePoint D ++ encodePoint Y ++ encodePoint T1 ++ encodePoint T2
      = (bytesOf "limonata/encmempool/dkg/dleq/v1" ++ be64 index)
        ++ [A, D, Y, T1, T2].flatMap encodePoint := by
    simp only [List.flatMap_cons, List.flatMap_nil, List.append_assoc, List.append_nil]
  have hset (c : ZMod groupOrder) : ((natOfBytes (beBytes 32 c.val) : Nat) : ZMod groupOrder) = c := by
    rw [natOfBytes_groupOrder, ZMod.natCast_zmod_val]
  show ((natOfBytes (challengeDigest (bytesOf "limonata/encmempool/dkg/dleq/v1" ++ be64 index
    ++ encodePoint A ++ encodePoint D ++ encodePoint Y ++ encodePoint T1 ++ encodePoint T2)) : Nat)
    : ZMod groupOrder) = _
  have hpart {i : Nat} {P : ZMod groupOrder} (hP : [A, D, Y, T1, T2][i]? = some P) :=
    challengePart_eq hhead hP
  rw [hinput, challengeDigest, hset, hpart (i := 0) rfl, hpart (i := 1) rfl, hpart (i := 2) rfl,
    hpart (i := 3) rfl, hpart (i := 4) rfl]

/-- An answer to the challenge of that digest proves a true statement: on a false one the challenge
exceeds by one the only value that has an answer. -/
theorem eq_of_answer {a d y c z : ZMod groupOrder}
    (h : (if d = y * a then 0 else ((z * a + -c * d) - a * (z + -c * y)) / (a * y - d) + 1) = c) :
    d = y * a := by
  by_contra hne
  rw [if_neg hne] at h
  have hden : a * y - d ≠ 0 := fun h0 => hne (by rw [mul_comm, sub_eq_zero.mp h0])
  have hnum : (z * a + -c * d) - a * (z + -c * y) = c * (a * y - d) := by ring
  rw [hnum, mul_div_cancel_right₀ _ hden] at h
  simp at h

theorem soundScheme_sound : ProofsSound soundScheme soundBase := by
  intro ctA A index D Y proof hA hverify
  cases hD : soundScheme.parsePubKey D with
  | none => simp [verifyDecryptShare, hA, hD] at hverify
  | some D' =>
    simp only [verifyDecryptShare, hA, hD, decide_eq_true_eq] at hverify
    have hc := congrArg Prod.fst ((soundScheme_isCurve.scalarBytes _).2.symm.trans
      ((congrArg soundScheme.scalarSetBytes hverify).trans (soundScheme_isCurve.scalarBytes _).2))
    exact ⟨Y, (mul_one (M := ZMod groupOrder) Y).symm,
      congrArg some (eq_of_answer ((dleqChallenge_soundScheme index A D' Y _ _).symm.trans hc))⟩

end SoundScheme

namespace Sample

/-- A dealer and an accuser whose only point is 7. -/
def disputeRound : DkgRound :=
  { epoch := 3, openHeight := 10, dealDeadline := 12, complaintDeadline := 14
    members := [⟨1, bytesOf "a", [], encodePoint 2, 1, [5], true⟩,
      ⟨2, bytesOf "b", [], encodePoint 3, 1, [7], true⟩]
    threshold := 1, membersHash := [], status := .isOpen, attempt := 0 }

def disputeNode : Node soundScheme :=
  { encKey := none, myOperator := bytesOf "b", ecdsaSign := fun _ _ => []
    deriveDLEQNonce := fun _ _ _ _ _ => (1 : ZMod groupOrder)
    gcmSeal := ({} : Tables).gcmSeal, coeff := fun _ => ⟨(1 : ZMod groupOrder), by decide⟩
    sealRand := fun _ => (⟨(4 : ZMod groupOrder), by decide⟩, ⟨List.replicate 12 0, by decide⟩)
    dkgPoisonRpts := fun _ => none }

/-- The box of a share at the point 7. -/
def disputeShare (share : Nat) : DkgStoredEncShare :=
  ⟨7, encodePoint 4, List.replicate 12 0, beBytes 32 share ++ blankTag⟩

/-- The dealer commits to the constant 5. -/
def disputeDealing (share : Nat) : Dealing :=
  { epoch := 3, dealerIndex := 1, dealer := bytesOf "a", commitments := [encodePoint 5]
    encShares := [disputeShare share] }

def disputeState (share : Nat) : State :=
  { init with dealings := RecStore.empty.put (disputeDealing share) }

end Sample

/-! ## Exactly the guilty -/

section Convict

variable {X : External} [Field X.Scalar] [AddCommGroup X.Point] [Module X.Scalar X.Point]
  {G : X.Point} {gcmSeal : Bytes → Bytes → Bytes → Bytes}

/-- **Complaints convict exactly the guilty.** No point and proof convict a dealer of a share sealed
as committed. About a bad share the node's complaint convicts; the node builds a complaint against
the dealer, which is stored on every state that holds the dealing unless the accuser burned the
point, burns none, and keeps the dealer out of the key the round installs. -/
theorem complaints_convict_exactly_the_guilty (hX : X.IsCurve G) (hseal : OpensSealed X gcmSeal)
    (haffine : ParsesAffine X) (hsound : ProofsSound X G) (node : Node X) :
    (∀ (p : Nat) (encPub : Bytes) (coeffs : List X.Scalar) (share : X.Scalar) (r : RandScalar X)
      (nonce : Nonce) (ct : Ciphertext) (commitments : List Bytes),
      evalPoly X p coeffs = some share →
      encryptShareTo X gcmSeal encPub share r nonce = some ct →
      parseCommitmentPoints X commitments = some (coeffs.map X.baseMul) →
      ∀ sharedPoint dleqProof, verifyJustifiedComplaint X p encPub commitments ct.a ct.nonce ct.body
        sharedPoint dleqProof ≠ (true, true))
    ∧ ∀ (s : State) (round : DkgRound) (operator : Bytes) (ek : EncKey X)
      (accuser m : RoundMember) (dealing : Dealing) (points : List X.Point) (p : Nat)
      (enc : DkgStoredEncShare),
      memberIndexByOperator round.members operator ≠ 0 →
      memberByIndex round (memberIndexByOperator round.members operator) = some accuser →
      X.parsePubKey accuser.encPubKey = some (ek.priv • G) →
      (∀ m ∈ round.members, m.index ≠ 0) → m ∈ round.members →
      m.index ≠ memberIndexByOperator round.members operator →
      s.dealings.get? (key2 round.epoch m.index) = some dealing →
      parseCommitmentPoints X dealing.commitments = some points →
      p ∈ accuser.ownedEvalPoints →
      dealing.encShares.find? (fun e => e.memberIndex = p) = some enc →
      BadShare X ek.priv points p enc →
      (∃ c, node.accuse ek.priv round.epoch m.index p enc.a = some c
        ∧ verifyJustifiedComplaint X p accuser.encPubKey dealing.commitments enc.a enc.nonce enc.body
          c.sharedPoint c.dleqProof = (true, true))
      ∧ ∃ c ∈ node.buildDkgComplaints s ek operator round, c.against = m.index
        ∧ (judgeComplaint X accuser.encPubKey dealing c).1 = true
        ∧ ∀ t : State, t.dealings.get? (key2 round.epoch m.index) = some dealing →
          t.rejectedComplaints.has (key4 round.epoch m.index
            (memberIndexByOperator round.members operator) c.evalPoint) = false →
          (t.ingestComplaintFromVE X round operator c).state.complaints.has (key3 round.epoch m.index
              (memberIndexByOperator round.members operator)) = true
            ∧ (t.ingestComplaintFromVE X round operator c).state.rejectedComplaints
              = t.rejectedComplaints
            ∧ ∀ ak, ((t.ingestComplaintFromVE X round operator c).state.finalizeRound X
                round).activeKeys.get? round.epoch = some ak →
              (t.ingestComplaintFromVE X round operator c).state.activeKeys.get? round.epoch
                = some ak ∨ m.index ∉ ak.qual := by
  refine ⟨fun _ _ _ _ _ _ _ _ hshare hct hcomm =>
    verifyJustifiedComplaint_honest hX hseal hsound hshare hct hcomm, ?_⟩
  intro s round operator ek accuser m dealing points p enc hidx haccuser hpub hzero hm hother
    hdealing hcomm hp hfind hbad
  obtain ⟨c₀, hc₀, -, -, -, hverdict⟩ :=
    accuse_convicts hX haffine node round.epoch m.index hpub hcomm hbad
  refine ⟨⟨c₀, hc₀, hverdict⟩, ?_⟩
  obtain ⟨c, hc⟩ :=
    firstComplaint_isSome hX haffine node round.epoch m.index hpub hcomm hp hfind hbad
  obtain ⟨hepoch, hagainst, hpoint, hjudge⟩ := firstComplaint_convicts hX haffine node hpub hcomm hc
  have hmine : Node.myPoints round operator
      = some (memberIndexByOperator round.members operator, accuser.ownedEvalPoints) := by
    simp [Node.myPoints, hidx, haccuser, List.ne_nil_of_mem hp]
  refine ⟨c, ?_, hagainst, hjudge, fun t hdealing' hfresh => ?_⟩
  · simp only [Node.buildDkgComplaints, hmine]
    exact List.mem_filterMap.mpr ⟨m, hm, by simp [hother, hdealing, hcomm, hc]⟩
  · have hjust : Justified X t round operator c :=
      ⟨hepoch, accuser.encPubKey, dealing,
        disputedPoint_eq hidx haccuser hm hagainst (hzero m hm) hother hpoint,
        hagainst ▸ hdealing', hjudge⟩
    rw [← hagainst] at hfresh ⊢
    obtain ⟨hstored, hburnt⟩ := hjust.ingest hfresh
    exact ⟨hstored, hburnt, fun ak hkey => finalizeRound_excludes hstored hkey⟩

end Convict

open Sample

/-- A share of the committed 5 convicts nobody; a share of 9 is complained about and the complaint
is stored. -/
theorem complaints_convict_nine :
    (∀ sharedPoint dleqProof, verifyJustifiedComplaint soundScheme 7 (encodePoint 3) [encodePoint 5]
      (disputeShare 5).a (disputeShare 5).nonce (disputeShare 5).body sharedPoint
        dleqProof ≠ (true, true))
    ∧ ∃ c ∈ disputeNode.buildDkgComplaints (disputeState 9)
        ⟨(3 : ZMod groupOrder), encodePoint 3⟩ (bytesOf "b") disputeRound, c.against = 1
      ∧ ((disputeState 9).ingestComplaintFromVE soundScheme disputeRound (bytesOf "b")
        c).state.complaints.has (key3 3 1 2) = true := by
  obtain ⟨hhonest, hguilty⟩ := complaints_convict_exactly_the_guilty soundScheme_isCurve
    soundScheme_opens soundScheme_affine soundScheme_sound disputeNode
  have hparse (P : ZMod groupOrder) (hP : P ≠ 0) :
      soundScheme.parsePubKey (encodePoint P) = some P := soundScheme_isCurve.encodes P hP
  refine ⟨?_, ?_⟩
  · -- the box of 5 is the one sealed to the accuser's key with the randomness 4
    have hct : encryptShareTo soundScheme ({} : Tables).gcmSeal (encodePoint 3) (5 : ZMod groupOrder)
        (disputeNode.sealRand 0).1 (disputeNode.sealRand 0).2
        = some ⟨(disputeShare 5).a, (disputeShare 5).nonce,
          (disputeShare 5).body⟩ := by
      unfold encryptShareTo encryptWithR
      rw [hparse 3 (by decide)]
      rfl
    refine hhonest 7 _ [(5 : ZMod groupOrder)] _ _ _ _ _ rfl hct ?_
    show (soundScheme.parsePubKey (encodePoint 5)).bind _ = _
    rw [hparse 5 (by decide)]
    rfl
  · have hbad : BadShare soundScheme (3 : ZMod groupOrder) [(5 : ZMod groupOrder)] 7
        (disputeShare 9) := by
      refine ⟨(4 : ZMod groupOrder), hparse 4 (by decide), ?_⟩
      intro plain hplain _ _
      obtain rfl : beBytes 32 9 = plain := Option.some.inj (Eq.trans (by rfl) hplain)
      decide +kernel
    have hcomm : parseCommitmentPoints soundScheme (disputeDealing 9).commitments
        = some [(5 : ZMod groupOrder)] := by
      show (soundScheme.parsePubKey (encodePoint 5)).bind _ = _
      rw [hparse 5 (by decide)]
      rfl
    have hround : memberIndexByOperator disputeRound.members (bytesOf "b") = 2
        ∧ ∀ m ∈ disputeRound.members, m.index ≠ 0 := by decide +kernel
    obtain ⟨-, c, hc, hagainst, -, hstored⟩ := hguilty (disputeState 9) disputeRound
      (bytesOf "b") ⟨(3 : ZMod groupOrder), encodePoint 3⟩
      ⟨2, bytesOf "b", [], encodePoint 3, 1, [7], true⟩ ⟨1, bytesOf "a", [], encodePoint 2, 1, [5], true⟩
      (disputeDealing 9) _ 7 (disputeShare 9) (by rw [hround.1]; decide)
      (by rw [hround.1]; rfl) (hparse 3 (by decide)) hround.2 List.mem_cons_self
      (by rw [hround.1]; decide) rfl hcomm List.mem_cons_self rfl hbad
    rw [hround.1] at hstored
    exact ⟨c, hc, hagainst, (hstored _ rfl rfl).1⟩

end EncMempool
