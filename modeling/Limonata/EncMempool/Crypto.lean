import Limonata.EncMempool.Types
import Limonata.Lib.Machine

/-!
# x/encmempool — the DKG and threshold cryptography the keeper calls

`External` collects what the repository takes from outside: the secp256k1 group and its scalars,
SHA-256, AES-GCM, ECDSA and the denom and address checks of the SDK. The functions of `dkg/` and `threshold/`
the keeper calls are defined over it: Feldman share keys by Horner's rule in the exponent, the
aggregation of the qualified dealings, Chaum-Pedersen share verification, the justified-complaint
check and Lagrange recovery.
-/

namespace EncMempool

open Machine

/-- Primitives that live outside the repository. -/
structure External where
  /-- Points of secp256k1, the point at infinity included. -/
  Point : Type
  /-- Scalars modulo the group order. -/
  Scalar : Type
  addPoint : Point → Point → Point
  mulPoint : Scalar → Point → Point
  baseMul : Scalar → Point
  /-- `secp256k1.ParsePubKey`, compressed and uncompressed encodings alike. -/
  parsePubKey : Bytes → Option Point
  /-- `SerializeCompressed` of the affine form. -/
  serializeCompressed : Point → Bytes
  /-- `ModNScalar.SetInt` of a `uint32`. -/
  scalarOfUint32 : Nat → Scalar
  scalarAdd : Scalar → Scalar → Scalar
  scalarMul : Scalar → Scalar → Scalar
  scalarNegate : Scalar → Scalar
  scalarInverse : Scalar → Scalar
  scalarIsZero : Scalar → Bool
  scalarBytes : Scalar → Bytes
  /-- `ModNScalar.SetBytes`: the reduced scalar and whether the input overflowed the order. -/
  scalarSetBytes : Bytes → Scalar × Bool
  sha256 : Bytes → Bytes
  /-- AES-256-GCM `Open` of a body under a key and a nonce. -/
  gcmOpen : Bytes → Bytes → Bytes → Option Bytes
  /-- `ecdsa.ParseDERSignature` and `Verify` of a digest under a public key. -/
  ecdsaVerify : Bytes → Bytes → Point → Bool
  /-- `sdk.ValidateDenom`. -/
  validDenom : Bytes → Bool
  /-- Whether `sdk.AccAddressFromBech32` accepts the address. -/
  validAccAddress : Bytes → Bool
  /-- The address of the governance module account. -/
  govAddr : Bytes

variable (X : External)

def validCompressedPoint (b : Bytes) : Bool := (X.parsePubKey b).isSome

def scalarFromUint (v : Nat) : X.Scalar := X.scalarOfUint32 (wrap32 v)

/-! ## Feldman commitments -/

/-- All commitments parsed, or nothing if one of them is not a point. -/
def parseCommitmentPoints : List Bytes → Option (List X.Point)
  | [] => some []
  | c :: cs => (X.parsePubKey c).bind fun p => (parseCommitmentPoints cs).map (p :: ·)

/-- The public share key at `index`, by Horner's rule from the highest commitment down. -/
def sharePubKey (index : Nat) : List X.Point → Option X.Point
  | [] => none
  | c :: cs =>
    match sharePubKey index cs with
    | none => some c
    | some acc => some (X.addPoint (X.mulPoint (scalarFromUint X index) acc) c)

/-- The compressed share keys of `count` indices from `index` on. -/
def compressedShareKeys (comm : List X.Point) : Nat → Nat → Option (List Bytes)
  | _, 0 => some []
  | index, count + 1 =>
    (sharePubKey X index comm).bind fun y =>
      (compressedShareKeys comm (index + 1) count).map (X.serializeCompressed y :: ·)

/-- The compressed share keys of `start .. stop`. A parse error and the nil dereference on an empty
commitment list are both `none`: neither leaves a key. -/
def shareKeysCompressedRange (publicCommitments : List Bytes) (start stop : Nat) :
    Option (List Bytes) :=
  (parseCommitmentPoints X publicCommitments).bind fun comm =>
    compressedShareKeys X comm (max start 1) (stop + 1 - max start 1)

/-- The Feldman check of one share. -/
def verifyShare (commitments : List X.Point) (index : Nat) (share : X.Scalar) : Bool :=
  match sharePubKey X index commitments with
  | none => false
  | some rhs => X.serializeCompressed (X.baseMul share) = X.serializeCompressed rhs

/-! ## Chaum-Pedersen share proofs -/

structure DLEQProof (X : External) where
  c : X.Scalar
  z : X.Scalar

/-- A 64-byte challenge and response pair of canonical scalars. -/
def parseDLEQProof (b : Bytes) : Option (DLEQProof X) :=
  if b.length ≠ 64 then none
  else
    let c := X.scalarSetBytes (b.take 32)
    let z := X.scalarSetBytes (b.drop 32)
    if c.2 || z.2 then none else some ⟨c.1, z.1⟩

def dleqChallenge (index : Nat) (A D Y T1 T2 : X.Point) : X.Scalar :=
  (X.scalarSetBytes (X.sha256 (bytesOf "limonata/encmempool/dkg/dleq/v1"
    ++ be64 index ++ X.serializeCompressed A ++ X.serializeCompressed D ++ X.serializeCompressed Y
    ++ X.serializeCompressed T1 ++ X.serializeCompressed T2))).1

/-- Whether the proof binds the partial `D` at `index` to the share key `Y` and to `A`. -/
def verifyDecryptShare (A : Bytes) (index : Nat) (D : Bytes) (Y : X.Point)
    (proof : DLEQProof X) : Bool :=
  match X.parsePubKey A, X.parsePubKey D with
  | some Apt, some Dpt =>
    let negC := X.scalarNegate proof.c
    let T1 := X.addPoint (X.baseMul proof.z) (X.mulPoint negC Y)
    let T2 := X.addPoint (X.mulPoint proof.z Apt) (X.mulPoint negC Dpt)
    X.scalarBytes (dleqChallenge X index Apt Dpt Y T1 T2) = X.scalarBytes proof.c
  | _, _ => false

/-! ## Threshold decryption -/

/-- The AES-GCM nonce size. -/
def nonceSize : Nat := 12

def decrypt (shared : X.Point) (nonce body : Bytes) : Option Bytes :=
  if nonce.length ≠ nonceSize then none
  else X.gcmOpen (X.sha256 (X.serializeCompressed shared)) nonce body

/-- The Lagrange coefficient at zero of `i` among `indices`. -/
def lagrangeAtZero (i : Nat) (indices : List Nat) : X.Scalar :=
  let others := indices.filter (· ≠ i)
  let num := others.foldl (fun acc j => X.scalarMul acc (scalarFromUint X j)) (scalarFromUint X 1)
  let den := others.foldl (fun acc j => X.scalarMul acc
    (X.scalarAdd (scalarFromUint X j) (X.scalarNegate (scalarFromUint X i)))) (scalarFromUint X 1)
  X.scalarMul num (X.scalarInverse den)

/-- The Lagrange terms of a list of partials, or nothing if one of them is not a point. -/
def recoverTerms (indices : List Nat) : List (Nat × Bytes) → Option (List X.Point)
  | [] => some []
  | (i, d) :: rest =>
    (X.parsePubKey d).bind fun D =>
      (recoverTerms indices rest).map (X.mulPoint (lagrangeAtZero X i indices) D :: ·)

/-- Combine partials `(index, D)` into the shared point. -/
def recover (shares : List (Nat × Bytes)) : Option X.Point :=
  (recoverTerms X (shares.map Prod.fst) shares).bind fun
    | [] => none
    | t :: ts => some (ts.foldl X.addPoint t)

/-- A partial with its parsed proof. -/
structure VerifiedShare (X : External) where
  index : Nat
  d : Bytes
  proof : Option (DLEQProof X)

/-- The share key used to verify `index`: the cached one if it parses, else recomputed. -/
def shareKeyFor (comm : List X.Point) (cachedKey : Nat → Option Bytes) (index : Nat) :
    Option X.Point :=
  match (cachedKey index).bind X.parsePubKey with
  | some p => some p
  | none => sharePubKey X index comm

/-- The partials that pass verification, first usable entry per index, at most `t` of them. -/
def goodPartials (comm : List X.Point) (ctA : Bytes) (t : Nat) (cachedKey : Nat → Option Bytes)
    (preVerified : Nat → Bool) : List (VerifiedShare X) → List (Nat × Bytes) → List (Nat × Bytes)
  | [], good => good
  | vs :: rest, good =>
    if good.length = t then good
    else match vs.proof with
      | none => goodPartials comm ctA t cachedKey preVerified rest good
      | some proof =>
        if vs.index < 1 ∨ 2 ^ 32 ≤ vs.index ∨ vs.index ∈ good.map Prod.fst then
          goodPartials comm ctA t cachedKey preVerified rest good
        else if preVerified vs.index then
          goodPartials comm ctA t cachedKey preVerified rest (good ++ [(vs.index, vs.d)])
        else match shareKeyFor X comm cachedKey vs.index with
          | none => goodPartials comm ctA t cachedKey preVerified rest good
          | some Y =>
            if verifyDecryptShare X ctA vs.index vs.d Y proof then
              goodPartials comm ctA t cachedKey preVerified rest (good ++ [(vs.index, vs.d)])
            else goodPartials comm ctA t cachedKey preVerified rest good

/-- Why a verified recovery yields no point. -/
inductive RecoverError where
  | invalidThreshold
  | noCommitments
  | insufficientVerified
  | badPartial
  deriving DecidableEq

/-- Verify partials until `t` are good, then combine them. -/
def recoverVerifiedWithKeys (comm : List X.Point) (ctA : Bytes) (t : Nat)
    (partials : List (VerifiedShare X)) (cachedKey : Nat → Option Bytes)
    (preVerified : Nat → Bool) : Except RecoverError X.Point :=
  if t < 1 then .error .invalidThreshold
  else if comm.length = 0 then .error .noCommitments
  else
    let good := goodPartials X comm ctA t cachedKey preVerified partials []
    if good.length < t then .error .insufficientVerified
    else match recover X good with
      | some p => .ok p
      | none => .error .badPartial

/-! ## Aggregation of a round -/

/-- A dealer's public contribution. -/
structure PublicDealing where
  dealer : Nat
  commitments : List Bytes
  deriving DecidableEq

/-- The public outcome of a finalized round. -/
structure PublicResult where
  pub : Bytes
  publicCommitments : List Bytes
  qual : List Nat
  deriving DecidableEq

/-- The parsed commitments of the last well-formed dealing of each dealer. -/
def dealingPoints (degree : Nat) (dealings : List PublicDealing) (dealer : Nat) :
    Option (List X.Point) :=
  dealings.foldl (fun acc d =>
    if d.dealer = dealer ∧ d.commitments.length = degree then
      match parseCommitmentPoints X d.commitments with
      | some pts => some pts
      | none => acc
    else acc) none

/-- The coefficient-wise sum of the commitment vectors of the qualified dealers. -/
def aggregateCommitments : List (List X.Point) → Option (List X.Point)
  | [] => none
  | v :: vs => some (vs.foldl (List.zipWith X.addPoint) v)

/-- Why a round does not finalize. -/
inductive FinalizeError where
  | invalidThreshold
  | noMembers
  | qualWeight
  | aggregateNotAPoint
  deriving DecidableEq

/-- Aggregate the dealings of the members that dealt and are not disqualified, if their weight
suffices. -/
def finalizePublicWeighted (members : List Nat) (degree : Nat) (dealings : List PublicDealing)
    (disqualified : List Nat) (weightOf : Nat → Nat) (minQualWeight : Nat) :
    Except FinalizeError PublicResult :=
  if degree < 1 then .error .invalidThreshold
  else if members.length = 0 then .error .noMembers
  else
    let sorted := members.insertionSort (· ≤ ·)
    let qual := sorted.filter fun m =>
      (dealingPoints X degree dealings m).isSome && !disqualified.contains m
    if (qual.map weightOf).sum < minQualWeight then .error .qualWeight
    else match aggregateCommitments X (qual.filterMap (dealingPoints X degree dealings)) with
      | none => .error .aggregateNotAPoint
      | some V =>
        let vbz := V.map X.serializeCompressed
        if vbz.all (validCompressedPoint X) then
          .ok { pub := vbz.headD [], publicCommitments := vbz, qual := qual }
        else .error .aggregateNotAPoint

variable {X} in
theorem parseCommitmentPoints_length {cs : List Bytes} {comm : List X.Point}
    (h : parseCommitmentPoints X cs = some comm) : comm.length = cs.length := by
  induction cs generalizing comm with
  | nil =>
    cases h
    rfl
  | cons c cs ih =>
    obtain ⟨P, -, h⟩ := Option.bind_eq_some_iff.mp h
    obtain ⟨rest, hrest, rfl⟩ := Option.map_eq_some_iff.mp h
    rw [List.length_cons, List.length_cons, ih hrest]

variable {X} in
theorem exists_of_dealingPoints {degree : Nat} {dealings : List PublicDealing} {dealer : Nat}
    {pts : List X.Point} (h : dealingPoints X degree dealings dealer = some pts) :
    ∃ d ∈ dealings, d.dealer = dealer ∧ d.commitments.length = degree
      ∧ parseCommitmentPoints X d.commitments = some pts := by
  unfold dealingPoints at h
  -- the fold keeps the last match, so the induction runs from the end of the list
  induction dealings using List.reverseRecOn with
  | nil => cases h
  | append_singleton ds d ih =>
    rw [List.foldl_append, List.foldl_cons, List.foldl_nil] at h
    have hearlier : List.foldl _ none ds = some pts → _ := fun hd =>
      let ⟨d', hmem, hd'⟩ := ih hd
      (⟨d', List.mem_append_left _ hmem, hd'⟩ : ∃ d' ∈ ds ++ [d], d'.dealer = dealer
        ∧ d'.commitments.length = degree ∧ parseCommitmentPoints X d'.commitments = some pts)
    split_ifs at h with hd
    · cases hparse : parseCommitmentPoints X d.commitments with
      | none => exact hearlier (by simpa [hparse] using h)
      | some p =>
        simp only [hparse] at h
        cases h
        exact ⟨d, by simp, hd.1, hd.2, hparse⟩
    · exact hearlier h

variable {X} in
theorem finalizePublicWeighted_spec {members : List Nat} {degree : Nat}
    {dealings : List PublicDealing} {disqualified : List Nat} {weightOf : Nat → Nat}
    {minQualWeight : Nat} {res : PublicResult}
    (h : finalizePublicWeighted X members degree dealings disqualified weightOf minQualWeight
      = .ok res) :
    res.qual = (members.insertionSort (· ≤ ·)).filter (fun m =>
        (dealingPoints X degree dealings m).isSome && !disqualified.contains m)
      ∧ minQualWeight ≤ (res.qual.map weightOf).sum
      ∧ ∃ V, aggregateCommitments X (res.qual.filterMap (dealingPoints X degree dealings)) = some V
        ∧ res.publicCommitments = V.map X.serializeCompressed
        ∧ res.pub = res.publicCommitments.headD []
        ∧ res.publicCommitments.all (validCompressedPoint X) = true := by
  unfold finalizePublicWeighted at h
  split_ifs at h with hdegree hmembers
  simp only at h
  split_ifs at h with hweight
  split at h
  · cases h
  · rename_i V hV
    split_ifs at h with hvalid
    cases h
    exact ⟨rfl, Nat.not_lt.mp hweight, V, hV, rfl, rfl, hvalid⟩

/-! ## Justified complaints -/

/-- Whether the accused dealer cheated at `evalPoint`, and whether the complaint's proof is
valid. -/
def verifyJustifiedComplaint (evalPoint : Nat) (accuserEncPub : Bytes)
    (dealerCommitments : List Bytes) (encA encNonce encBody sharedPoint dleqProof : Bytes) :
    Bool × Bool :=
  if (X.parsePubKey encA).isNone then (true, true)
  else if encNonce.length ≠ nonceSize then (true, true)
  else match X.parsePubKey accuserEncPub, parseDLEQProof X dleqProof with
    | some Y, some proof =>
      if verifyDecryptShare X encA evalPoint sharedPoint Y proof = false then (false, false)
      else match X.parsePubKey sharedPoint with
        | none => (false, true)
        | some S => match decrypt X S encNonce encBody with
          | none => (true, true)
          | some plain =>
            if plain.length ≠ 32 then (true, true)
            else match parseCommitmentPoints X dealerCommitments with
              | none => (true, true)
              | some comm =>
                let s := X.scalarSetBytes plain
                if s.2 then (true, true)
                else if verifyShare X comm evalPoint s.1 then (false, true)
                else (true, true)
    | _, _ => (false, false)

/-! ## Proofs of possession and of knowledge -/

/-- The proof that the announcer holds the secret of its encryption key. -/
def verifyEncKeyPoP (encPub operator pop : Bytes) : Bool :=
  if operator = [] ∨ pop.length = 0 then false
  else match X.parsePubKey encPub with
    | none => false
    | some pub =>
      X.ecdsaVerify pop (X.sha256 (bytesOf "LIMO-DKG-ENCKEY-POP\x00" ++ operator)) pub

/-- A length-prefixed field of a hash input. -/
def hashField (b : Bytes) : Bytes := (be64 (wrap32 b.length)).drop 4 ++ b

/-- The proof that the submitter knows the randomness of its ciphertext. -/
def verifyEncKeyPoK (chainID a submitter nonce body pok : Bytes) : Bool :=
  if pok.length ≠ 64 then false
  else
    let c := X.scalarSetBytes (pok.take 32)
    let z := X.scalarSetBytes (pok.drop 32)
    if c.2 || z.2 || X.scalarIsZero c.1 || X.scalarIsZero z.1 then false
    else match X.parsePubKey a with
      | none => false
      | some A =>
        let T := X.addPoint (X.baseMul z.1) (X.mulPoint (X.scalarNegate c.1) A)
        let want := (X.scalarSetBytes (X.sha256 (bytesOf "limonata/encmempool/enc-pok/v1"
          ++ hashField chainID ++ hashField a ++ hashField submitter ++ hashField nonce
          ++ hashField body ++ X.serializeCompressed T))).1
        X.scalarBytes want = X.scalarBytes c.1

/-! ## The primitives on known inputs -/

/-- The order of the secp256k1 group. -/
def groupOrder : Nat := 0xFFFFFFFFFFFFFFFFFFFFFFFFFFFFFFFEBAAEDCE6AF48A03BBFD25E8CD0364141

/-- The values of the primitives on finitely many inputs. -/
structure Tables where
  /-- Points by their discrete logarithm to the base point, with the compressed encoding. -/
  points : List (Nat × Bytes) := []
  digests : List (Bytes × Bytes) := []
  /-- Sealed boxes `(key, nonce, body)` that open. -/
  opened : List ((Bytes × Bytes × Bytes) × Bytes) := []
  /-- Signatures `(signature, digest, public key)` that verify. -/
  signed : List (Bytes × Bytes × Nat) := []
  accounts : List Bytes := []

/-- The number a big-endian byte string stands for. -/
def natOfBytes (b : Bytes) : Nat := b.foldl (fun acc x => acc * 256 + x.1) 0

/-- The power of `base` modulo the group order, over the lowest `bits` bits of the exponent. -/
def powModOrder : Nat → Nat → Nat → Nat
  | 0, _, _ => 1
  | bits + 1, base, e =>
    let rest := powModOrder bits (base * base % groupOrder) (e / 2)
    if e % 2 = 1 then base * rest % groupOrder else rest

/-- The primitives restricted to the inputs of a table, with a point given by its logarithm. -/
def External.ofTables (t : Tables) : External where
  Point := Nat
  Scalar := Nat
  addPoint P Q := (P + Q) % groupOrder
  mulPoint k P := k * P % groupOrder
  baseMul k := k % groupOrder
  parsePubKey b := (t.points.find? (fun p => p.2 = b)).map Prod.fst
  serializeCompressed P := ((t.points.find? (fun p => p.1 = P)).map Prod.snd).getD []
  scalarOfUint32 v := v
  scalarAdd a b := (a + b) % groupOrder
  scalarMul a b := a * b % groupOrder
  scalarNegate a := (groupOrder - a) % groupOrder
  scalarInverse a := powModOrder 256 a (groupOrder - 2)
  scalarIsZero a := a = 0
  scalarBytes a := beBytes 32 a
  scalarSetBytes b := (natOfBytes b % groupOrder, groupOrder ≤ natOfBytes b)
  sha256 b := ((t.digests.find? (fun d => d.1 = b)).map Prod.snd).getD []
  gcmOpen key nonce body :=
    (t.opened.find? (fun o => o.1 = (key, nonce, body))).map Prod.snd
  ecdsaVerify sig digest P := t.signed.contains (sig, digest, P)
  validDenom d := d = bytesOf "stake"
  validAccAddress a := t.accounts.contains a
  govAddr := bytesOf "cosmos10d07y265gmmuvt4z0w9aw880jnsr700j6zn9kn"

end EncMempool
