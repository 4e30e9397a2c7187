import Limonata.EncMempool.Complaints

/-!
# x/encmempool — the sigma proofs (`dkg/proof.go`, `dkg/pok.go`)

A partial decryption carries a Chaum-Pedersen proof, a ciphertext a Schnorr proof of its ephemeral key. Both
derive the nonce from the secret and the transcript, so that a nonce is never used for two challenges. A run
of a prover is recorded with what it hashes; the curve and its encodings are those of `IsCurve`.

* `proveDecryptShareRun_eq`, `proveEncKeyPoKRun_eq`: runs with one secret and one nonce are the same run,
* `parseDLEQProof_inj`, `parseEncKeyPoK_inj`: a proof has one encoding.
-/

namespace EncMempool

open Machine

section Model

variable (X : External)

/-! ## Nonces -/

/-- The retry counter, little-endian. -/
def counterBytes (ctr : Nat) : Bytes := (beBytes 4 ctr).reverse

/-- Hash the input with rising counters until the digest is a non-zero scalar below the order. -/
def sampleScalar (input : Nat → Bytes) : Nat → Nat → Option X.Scalar
  | 0, _ => none
  | tries + 1, ctr =>
    let k := X.scalarSetBytes (X.sha256 (input ctr))
    if k.2 = false ∧ X.scalarIsZero k.1 = false then some k.1
    else sampleScalar input tries (ctr + 1)

/-- The four-byte counter is back at zero after `2^32` digests: `none` is the loop that does not end. -/
def deriveNonce (input : Nat → Bytes) : Option X.Scalar := sampleScalar X input (2 ^ 32) 0

/-! ## The proof of a partial decryption -/

def dleqNonceInput (index : Nat) (x : X.Scalar) (A D Y : X.Point) (ctr : Nat) : Bytes :=
  bytesOf "limonata/encmempool/dkg/dleq-nonce/v1" ++ be64 index ++ X.scalarBytes x
    ++ X.serializeCompressed A ++ X.serializeCompressed D ++ X.serializeCompressed Y ++ counterBytes ctr

def deriveDLEQNonce (index : Nat) (x : X.Scalar) (A D Y : X.Point) : Option X.Scalar :=
  deriveNonce X (dleqNonceInput X index x A D Y)

/-- The input of the Fiat-Shamir challenge. -/
def dleqTranscript (index : Nat) (A D Y T1 T2 : X.Point) : Bytes :=
  bytesOf "limonata/encmempool/dkg/dleq/v1" ++ be64 index ++ X.serializeCompressed A
    ++ X.serializeCompressed D ++ X.serializeCompressed Y ++ X.serializeCompressed T1
    ++ X.serializeCompressed T2

/-- What a prover hashes for its nonce and for its challenge, and what it returns. -/
structure ProofRun (α : Type) where
  nonceInput : Nat → Bytes
  nonce : X.Scalar
  transcript : Bytes
  result : α

def proveDecryptShareRun (share : Share X) (ctA : Bytes) : Option (ProofRun X (Bytes × DLEQProof X)) := do
  let ds ← computeShare X share ctA
  let A ← X.parsePubKey ctA
  let D ← X.parsePubKey ds.2
  let Y := X.baseMul share.xi
  let k ← deriveDLEQNonce X share.index share.xi A D Y
  let c := dleqChallenge X share.index A D Y (X.baseMul k) (X.mulPoint k A)
  some {
    nonceInput := dleqNonceInput X share.index share.xi A D Y
    nonce := k
    transcript := dleqTranscript X share.index A D Y (X.baseMul k) (X.mulPoint k A)
    result := (ds.2, ⟨c, X.scalarAdd k (X.scalarMul c share.xi)⟩) }

/-- A partial decryption with the proof that it was made with the share. -/
def proveDecryptShare (share : Share X) (ctA : Bytes) : Option (Bytes × DLEQProof X) :=
  (proveDecryptShareRun X share ctA).map ProofRun.result

/-! ## The proof of knowledge of an ephemeral key -/

structure EncKeyPoK where
  c : X.Scalar
  z : X.Scalar

/-- The length-prefixed fields a proof is bound to. -/
def encPoKFields (chainID a submitter nonce body : Bytes) : Bytes :=
  hashField chainID ++ hashField a ++ hashField submitter ++ hashField nonce ++ hashField body

def encPoKNonceInput (r : X.Scalar) (chainID submitter a nonce body : Bytes) (ctr : Nat) : Bytes :=
  bytesOf "limonata/encmempool/enc-pok-nonce/v1" ++ X.scalarBytes r
    ++ encPoKFields chainID a submitter nonce body ++ counterBytes ctr

def deriveEncPoKNonce (r : X.Scalar) (chainID submitter a nonce body : Bytes) : Option X.Scalar :=
  deriveNonce X (encPoKNonceInput X r chainID submitter a nonce body)

def encPoKTranscript (chainID a submitter nonce body : Bytes) (T : X.Point) : Bytes :=
  bytesOf "limonata/encmempool/enc-pok/v1" ++ encPoKFields chainID a submitter nonce body
    ++ X.serializeCompressed T

def encPoKChallenge (chainID a submitter nonce body : Bytes) (T : X.Point) : X.Scalar :=
  (X.scalarSetBytes (X.sha256 (encPoKTranscript X chainID a submitter nonce body T))).1

def proveEncKeyPoKRun (r : X.Scalar) (chainID submitter a nonce body : Bytes) :
    Option (ProofRun X (EncKeyPoK X)) := do
  let k ← deriveEncPoKNonce X r chainID submitter a nonce body
  let c := encPoKChallenge X chainID a submitter nonce body (X.baseMul k)
  some {
    nonceInput := encPoKNonceInput X r chainID submitter a nonce body
    nonce := k
    transcript := encPoKTranscript X chainID a submitter nonce body (X.baseMul k)
    result := ⟨c, X.scalarAdd k (X.scalarMul c r)⟩ }

def proveEncKeyPoK (r : X.Scalar) (chainID submitter a nonce body : Bytes) : Option (EncKeyPoK X) :=
  (proveEncKeyPoKRun X r chainID submitter a nonce body).map ProofRun.result

/-- The check of a parsed proof. -/
def EncKeyPoK.verify (chainID a submitter nonce body : Bytes) (proof : EncKeyPoK X) : Bool :=
  match X.parsePubKey a with
  | none => false
  | some A =>
    let T := X.addPoint (X.baseMul proof.z) (X.mulPoint (X.scalarNegate proof.c) A)
    X.scalarBytes (encPoKChallenge X chainID a submitter nonce body T) = X.scalarBytes proof.c

/-- A 64-byte challenge and response pair of canonical non-zero scalars. -/
def parseEncKeyPoK (b : Bytes) : Option (EncKeyPoK X) :=
  if b.length ≠ 64 then none
  else
    let c := X.scalarSetBytes (b.take 32)
    let z := X.scalarSetBytes (b.drop 32)
    if c.2 || z.2 then none
    else if X.scalarIsZero c.1 || X.scalarIsZero z.1 then none
    else some ⟨c.1, z.1⟩

theorem verifyEncKeyPoK_eq (chainID a submitter nonce body pok : Bytes) :
    verifyEncKeyPoK X chainID a submitter nonce body pok
      = match parseEncKeyPoK X pok with
        | none => false
        | some proof => proof.verify X chainID a submitter nonce body := by
  unfold verifyEncKeyPoK parseEncKeyPoK
  split_ifs with hlen
  · rfl
  · by_cases hover : ((X.scalarSetBytes (pok.take 32)).2 || (X.scalarSetBytes (pok.drop 32)).2) = true
    · simp [hover]
    by_cases hzero : (X.scalarIsZero (X.scalarSetBytes (pok.take 32)).1
        || X.scalarIsZero (X.scalarSetBytes (pok.drop 32)).1) = true
    · simp [Bool.or_assoc, hzero]
    · simp only [Bool.or_assoc, hzero, hover, Bool.or_false, Bool.false_eq_true, if_false]
      unfold EncKeyPoK.verify encPoKChallenge encPoKTranscript
      cases X.parsePubKey a with
      | none => rfl
      | some A => simp only [encPoKFields, List.append_assoc]

end Model

/-! ## One nonce, one challenge -/

/-- Bytes below the order are the encoding of their scalar. -/
def CanonicalScalars (X : External) : Prop :=
  ∀ b, b.length = 32 → (X.scalarSetBytes b).2 = false → X.scalarBytes (X.scalarSetBytes b).1 = b

/-- What the encodings promise besides `IsCurve`. -/
structure Encodings (X : External) : Prop where
  point_length : ∀ P, (X.serializeCompressed P).length = 33
  digest_length : ∀ b, (X.sha256 b).length = 32
  canonical : CanonicalScalars X

section Nonces

variable {X : External}
  {x k : X.Scalar} {A : X.Point} {ctA : Bytes} {i : Nat}

theorem sampleScalar_some {input : Nat → Bytes} {tries ctr : Nat}
    (h : sampleScalar X input tries ctr = some k) :
    ∃ n, X.scalarSetBytes (X.sha256 (input n)) = (k, false) := by
  induction tries generalizing ctr with
  | zero => cases h
  | succ tries ih =>
    rw [sampleScalar] at h
    split_ifs at h with hgood
    · cases h
      exact ⟨ctr, Prod.ext rfl hgood.1⟩
    · exact ih h

theorem deriveNonce_inj (hE : Encodings X) {input input' : Nat → Bytes}
    (hsha : Set.InjOn X.sha256 (Set.range input ∪ Set.range input'))
    (h : deriveNonce X input = some k) (h' : deriveNonce X input' = some k) :
    ∃ n n', input n = input' n' := by
  obtain ⟨n, hn⟩ := sampleScalar_some h
  obtain ⟨n', hn'⟩ := sampleScalar_some h'
  have hdigest (m : Bytes) (hm : X.scalarSetBytes (X.sha256 m) = (k, false)) :
      X.sha256 m = X.scalarBytes k := by
    have hcanon := hE.canonical (X.sha256 m) (hE.digest_length m) (by rw [hm])
    rw [← hcanon, hm]
  refine ⟨n, n', hsha (.inl ⟨n, rfl⟩) (.inr ⟨n', rfl⟩) ?_⟩
  rw [hdigest _ hn, hdigest _ hn']

/-- Two proofs of knowledge of one ephemeral key with one nonce are one proof: the fields stand in the nonce
input as they stand in the challenge. -/
theorem proveEncKeyPoKRun_eq (hE : Encodings X) {r : X.Scalar}
    {chainID submitter a nonce body chainID' submitter' a' nonce' body' : Bytes}
    {run run' : ProofRun X (EncKeyPoK X)}
    (h : proveEncKeyPoKRun X r chainID submitter a nonce body = some run)
    (h' : proveEncKeyPoKRun X r chainID' submitter' a' nonce' body' = some run')
    (hsha : Set.InjOn X.sha256 (Set.range run.nonceInput ∪ Set.range run'.nonceInput))
    (hnonce : run.nonce = run'.nonce) : run = run' := by
  obtain ⟨k, hk, h⟩ := Option.bind_eq_some_iff.mp h
  obtain ⟨k', hk', h'⟩ := Option.bind_eq_some_iff.mp h'
  cases h
  cases h'
  obtain rfl : k = k' := hnonce
  obtain ⟨n, n', hinput⟩ := deriveNonce_inj hE hsha hk hk'
  obtain ⟨hinput, -⟩ := List.append_inj' hinput (by simp [counterBytes])
  have hfields := List.append_cancel_left hinput
  unfold encPoKChallenge encPoKTranscript encPoKNonceInput
  rw [hfields]

variable [Field X.Scalar] [AddCommGroup X.Point] [Module X.Scalar X.Point] {G : X.Point}

theorem External.IsCurve.serialize_inj (hX : X.IsCurve G) {P Q : X.Point}
    (h : X.serializeCompressed P = X.serializeCompressed Q) : P = Q := by
  by_cases hQ : Q = 0
  · by_contra hne
    have hparse := hX.encodes P (fun hP => hne (hP.trans hQ.symm))
    rw [h, hQ, hX.identity] at hparse
    cases hparse
  · have hparse := hX.encodes Q hQ
    rw [← h] at hparse
    exact (hX.eq_of_parse hparse).symm

theorem dleqNonceInput_inj (hX : X.IsCurve G) (hE : Encodings X) {i' n n' : Nat}
    {A' D D' Y : X.Point} (h : dleqNonceInput X i x A D Y n = dleqNonceInput X i' x A' D' Y n') :
    be64 i = be64 i' ∧ A = A' ∧ D = D' := by
  have hlen := hE.point_length
  unfold dleqNonceInput at h
  obtain ⟨h, -⟩ := List.append_inj h (by simp [hlen, be64])
  obtain ⟨h, -⟩ := List.append_inj h (by simp [hlen, be64])
  obtain ⟨h, hD⟩ := List.append_inj h (by simp [hlen, be64])
  obtain ⟨h, hA⟩ := List.append_inj h (by simp [be64])
  obtain ⟨h, -⟩ := List.append_inj h (by simp [be64])
  obtain ⟨-, hi⟩ := List.append_inj h rfl
  exact ⟨hi, hX.serialize_inj hA, hX.serialize_inj hD⟩

theorem proveDecryptShareRun_some (hX : X.IsCurve G) {run : ProofRun X (Bytes × DLEQProof X)}
    (h : proveDecryptShareRun X ⟨i, x⟩ ctA = some run) :
    ∃ A k, X.parsePubKey ctA = some A ∧ X.parsePubKey (X.serializeCompressed (x • A)) = some (x • A)
      ∧ deriveNonce X (dleqNonceInput X i x A (x • A) (x • G)) = some k
      ∧ run = ⟨dleqNonceInput X i x A (x • A) (x • G), k,
          dleqTranscript X i A (x • A) (x • G) (k • G) (k • A), X.serializeCompressed (x • A),
          dleqChallenge X i A (x • A) (x • G) (k • G) (k • A),
          k + dleqChallenge X i A (x • A) (x • G) (k • G) (k • A) * x⟩ := by
  unfold proveDecryptShareRun at h
  obtain ⟨ds, hds, h⟩ := Option.bind_eq_some_iff.mp h
  obtain ⟨A, hA, h⟩ := Option.bind_eq_some_iff.mp h
  obtain ⟨D, hD, h⟩ := Option.bind_eq_some_iff.mp h
  obtain ⟨k, hk, h⟩ := Option.bind_eq_some_iff.mp h
  rw [computeShare, hA, Option.map_some] at hds
  cases hds
  simp only [hX.mulPoint] at hD h
  obtain rfl : D = x • A := hX.eq_of_parse hD
  simp only [hX.baseMul, hX.scalarAdd, hX.scalarMul, Option.some.injEq] at hk h
  exact ⟨A, k, hA, hD, hk, h.symm⟩

theorem proveDecryptShareRun_eq (hX : X.IsCurve G) (hE : Encodings X) {i' : Nat} {ctA' : Bytes}
    {run run' : ProofRun X (Bytes × DLEQProof X)} (h : proveDecryptShareRun X ⟨i, x⟩ ctA = some run)
    (h' : proveDecryptShareRun X ⟨i', x⟩ ctA' = some run')
    (hsha : Set.InjOn X.sha256 (Set.range run.nonceInput ∪ Set.range run'.nonceInput))
    (hnonce : run.nonce = run'.nonce) : run = run' := by
  obtain ⟨A, k, -, -, hk, rfl⟩ := proveDecryptShareRun_some hX h
  obtain ⟨A', k', -, -, hk', rfl⟩ := proveDecryptShareRun_some hX h'
  obtain rfl : k = k' := hnonce
  obtain ⟨n, n', hinput⟩ := deriveNonce_inj hE hsha hk hk'
  obtain ⟨hi, rfl, -⟩ := dleqNonceInput_inj hX hE hinput
  -- the index enters both transcripts by its eight bytes
  unfold dleqChallenge dleqTranscript dleqNonceInput
  rw [hi]

end Nonces

/-- **No nonce for two challenges.** Where the nonce inputs of two proofs have no collision under SHA-256,
two proofs with one secret and one nonce have the same challenge input and are identical: partial
decryptions at any indices of any ciphertexts, and proofs of knowledge bound to any fields. -/
theorem nonce_binds_challenge {X : External} [Field X.Scalar] [AddCommGroup X.Point]
    [Module X.Scalar X.Point] {G : X.Point} (hX : X.IsCurve G) (hE : Encodings X) :
    (∀ (x : X.Scalar) (i i' : Nat) (ctA ctA' : Bytes) (run run' : ProofRun X (Bytes × DLEQProof X)),
      proveDecryptShareRun X ⟨i, x⟩ ctA = some run → proveDecryptShareRun X ⟨i', x⟩ ctA' = some run' →
      Set.InjOn X.sha256 (Set.range run.nonceInput ∪ Set.range run'.nonceInput) →
      run.nonce = run'.nonce → run.transcript = run'.transcript ∧ run.result = run'.result)
    ∧ ∀ (r : X.Scalar) (chainID submitter a nonce body chainID' submitter' a' nonce' body' : Bytes)
      (run run' : ProofRun X (EncKeyPoK X)),
      proveEncKeyPoKRun X r chainID submitter a nonce body = some run →
      proveEncKeyPoKRun X r chainID' submitter' a' nonce' body' = some run' →
      Set.InjOn X.sha256 (Set.range run.nonceInput ∪ Set.range run'.nonceInput) →
      run.nonce = run'.nonce → run.transcript = run'.transcript ∧ run.result = run'.result := by
  constructor
  · intro x i i' ctA ctA' run run' h h' hsha hnonce
    obtain rfl := proveDecryptShareRun_eq hX hE h h' hsha hnonce
    exact ⟨rfl, rfl⟩
  · intro r chainID submitter a nonce body chainID' submitter' a' nonce' body' run run' h h' hsha hnonce
    obtain rfl := proveEncKeyPoKRun_eq hE h h' hsha hnonce
    exact ⟨rfl, rfl⟩

namespace Sample

/-- A digest that keeps the end of its input. -/
def tailDigest (b : Bytes) : Bytes := (b.reverse ++ List.replicate 32 0).take 32

/-- The group of the curve's order with that digest. -/
def tailScheme : External := { External.ofGroup {} with sha256 := tailDigest }

instance : Field tailScheme.Scalar := inferInstanceAs (Field (ZMod groupOrder))

instance : AddCommGroup tailScheme.Point := inferInstanceAs (AddCommGroup (ZMod groupOrder))

instance : Module tailScheme.Scalar tailScheme.Point :=
  inferInstanceAs (Module (ZMod groupOrder) (ZMod groupOrder))

def tailBase : tailScheme.Point := (1 : ZMod groupOrder)

/-- The share 3 at index 1. -/
def shareThree : Share tailScheme := ⟨1, ((3 : ℕ) : ZMod groupOrder)⟩

theorem tailScheme_isCurve : tailScheme.IsCurve tailBase :=
  have h := External.ofGroup_isCurve noTables_wellFormed
  { addPoint := h.addPoint, mulPoint := h.mulPoint, baseMul := h.baseMul, base_ne := h.base_ne
    scalarOfUint32 := h.scalarOfUint32, index_inj := h.index_inj, scalarAdd := h.scalarAdd
    scalarMul := h.scalarMul, scalarNegate := h.scalarNegate, scalarInverse := h.scalarInverse
    scalarIsZero := h.scalarIsZero, scalarBytes := h.scalarBytes, encodes := h.encodes
    identity := h.identity }

theorem beBytes_natOfBytes (b : Bytes) : beBytes b.length (natOfBytes b) = b := by
  induction b using List.reverseRecOn with
  | nil => rfl
  | append_singleton b x ih =>
    have hx := x.isLt
    rw [List.length_append, List.length_singleton, beBytes_succ, natOfBytes_append_singleton]
    have hdiv : (natOfBytes b * 256 + x.1) / 256 = natOfBytes b := by omega
    rw [hdiv, ih]
    congr 2
    exact Fin.ext (by simp [Fin.ofNat])

theorem tailScheme_encodings : Encodings tailScheme where
  point_length P := length_encodePoint P
  digest_length b := by
    show (tailDigest b).length = 32
    simp [tailDigest]
  canonical b hb hover := by
    have hlt : natOfBytes b < groupOrder := by simpa [tailScheme, External.ofGroup] using hover
    show beBytes 32 (ZMod.val ((natOfBytes b : Nat) : ZMod groupOrder)) = b
    rw [ZMod.val_natCast, Nat.mod_eq_of_lt hlt, ← hb, beBytes_natOfBytes]

theorem tailDigest_injOn (head : Bytes) :
    Set.InjOn tailDigest (Set.range fun n => head ++ counterBytes n) := by
  rintro - ⟨n, rfl⟩ - ⟨n', rfl⟩ h
  have hend (m : Nat) : (tailDigest (head ++ counterBytes m)).take 4 = (counterBytes m).reverse := by
    rw [tailDigest, List.take_take, List.reverse_append, List.append_assoc]
    exact List.take_left' (by simp [counterBytes])
  have hctr := (hend n).symm.trans ((congrArg (List.take 4) h).trans (hend n'))
  exact congrArg (head ++ ·) (List.reverse_injective hctr)

end Sample

open Sample

/-- The partial decryptions of one ciphertext with one share. -/
theorem nonce_binds_challenge_three : ∃ run,
    proveDecryptShareRun tailScheme shareThree (encodePoint 5) = some run
    ∧ ∀ run', proveDecryptShareRun tailScheme shareThree (encodePoint 5) = some run' →
      run.transcript = run'.transcript ∧ run.result = run'.result := by
  have hsome : (proveDecryptShareRun tailScheme shareThree (encodePoint 5)).isSome = true := by
    decide +kernel
  obtain ⟨run, hrun⟩ := Option.isSome_iff_exists.mp hsome
  refine ⟨run, hrun, fun run' hrun' => ?_⟩
  have hsame : run = run' := Option.some.inj (hrun.symm.trans hrun')
  refine (nonce_binds_challenge tailScheme_isCurve tailScheme_encodings).1
    shareThree.xi 1 1 (encodePoint 5) (encodePoint 5) run run' hrun hrun' ?_
    (congrArg ProofRun.nonce hsame)
  obtain ⟨A, k, -, -, -, rfl⟩ := proveDecryptShareRun_some tailScheme_isCurve hrun
  rw [← hsame, Set.union_self]
  exact tailDigest_injOn _

/-! ## Completeness, soundness and encodings -/

section Sound

variable {X : External}

theorem bytes_of_scalars (hcanon : CanonicalScalars X) {b : Bytes} (hlen : b.length = 64)
    (hover : ((X.scalarSetBytes (b.take 32)).2 || (X.scalarSetBytes (b.drop 32)).2) = false) :
    X.scalarBytes (X.scalarSetBytes (b.take 32)).1 ++ X.scalarBytes (X.scalarSetBytes (b.drop 32)).1 = b := by
  obtain ⟨hc, hz⟩ := Bool.or_eq_false_iff.mp hover
  rw [hcanon _ (by simp [hlen]) hc, hcanon _ (by simp [hlen]) hz, List.take_append_drop]

theorem parseDLEQProof_some (hcanon : CanonicalScalars X) {b : Bytes} {p : DLEQProof X} (h : parseDLEQProof X b = some p) :
    b = X.scalarBytes p.c ++ X.scalarBytes p.z := by
  unfold parseDLEQProof at h
  simp only at h
  split_ifs at h with hlen hover
  cases h
  exact (bytes_of_scalars hcanon (not_not.mp hlen) (Bool.not_eq_true _ ▸ hover)).symm

theorem parseEncKeyPoK_some (hcanon : CanonicalScalars X) {b : Bytes} {p : EncKeyPoK X} (h : parseEncKeyPoK X b = some p) :
    b = X.scalarBytes p.c ++ X.scalarBytes p.z := by
  unfold parseEncKeyPoK at h
  simp only at h
  split_ifs at h with hlen hover hzero
  cases h
  exact (bytes_of_scalars hcanon (not_not.mp hlen) (Bool.not_eq_true _ ▸ hover)).symm

variable [Field X.Scalar] [AddCommGroup X.Point] [Module X.Scalar X.Point] {G : X.Point}

/-- The commitments a verifier reconstructs. -/
def dleqCommitments (X : External) (A D Y : X.Point) (proof : DLEQProof X) : X.Point × X.Point :=
  (X.addPoint (X.baseMul proof.z) (X.mulPoint (X.scalarNegate proof.c) Y),
    X.addPoint (X.mulPoint proof.z A) (X.mulPoint (X.scalarNegate proof.c) D))

theorem proveDecryptShare_verified (hX : X.IsCurve G) {D : Bytes} {proof : DLEQProof X}
    (h : proveDecryptShare X ⟨i, x⟩ ctA = some (D, proof)) :
    verifyDecryptShare X ctA i D (x • G) proof = true := by
  obtain ⟨run, hrun, heq⟩ := Option.map_eq_some_iff.mp h
  obtain ⟨A, k, hA, hD, -, rfl⟩ := proveDecryptShareRun_some hX hrun
  cases heq
  exact verifyDecryptShare_respond hX i hA hD k

theorem exists_proveDecryptShare (hX : X.IsCurve G) (hx : x ≠ 0) (hA : X.parsePubKey ctA = some A)
    (hA0 : A ≠ 0) (hk : deriveDLEQNonce X i x A (x • A) (x • G) = some k) :
    ∃ D proof, proveDecryptShare X ⟨i, x⟩ ctA = some (D, proof) := by
  have hD : X.parsePubKey (X.serializeCompressed (x • A)) = some (x • A) :=
    hX.encodes _ (smul_ne_zero hx hA0)
  have hsome : (proveDecryptShare X ⟨i, x⟩ ctA).isSome = true := by
    unfold proveDecryptShare proveDecryptShareRun computeShare
    simp only [hA, hX.mulPoint, hX.baseMul, Option.map_some, Option.bind_eq_bind, Option.bind_some, hD, hk,
      Option.isSome_some]
  obtain ⟨⟨D, proof⟩, hproof⟩ := Option.isSome_iff_exists.mp hsome
  exact ⟨D, proof, hproof⟩

theorem exists_proveEncKeyPoK (hX : X.IsCurve G) {r : X.Scalar}
    {chainID submitter a nonce body : Bytes} (ha : X.parsePubKey a = some (r • G))
    (hk : deriveEncPoKNonce X r chainID submitter a nonce body = some k) :
    ∃ proof, proveEncKeyPoK X r chainID submitter a nonce body = some proof
      ∧ proof.verify X chainID a submitter nonce body = true := by
  have hprove : proveEncKeyPoK X r chainID submitter a nonce body
      = some ⟨encPoKChallenge X chainID a submitter nonce body (k • G),
        k + encPoKChallenge X chainID a submitter nonce body (k • G) * r⟩ := by
    simp only [proveEncKeyPoK, proveEncKeyPoKRun, hk, Option.bind_eq_bind, Option.bind_some,
      Option.map_some, hX.baseMul, hX.scalarAdd, hX.scalarMul]
  refine ⟨_, hprove, ?_⟩
  simp only [EncKeyPoK.verify, ha, hX.addPoint, hX.baseMul, hX.mulPoint, hX.scalarNegate,
    Sigma.reconstruct, decide_true]

theorem dleq_extract (hX : X.IsCurve G) {D Y : X.Point} {p p' : DLEQProof X}
    (h : dleqCommitments X A D Y p = dleqCommitments X A D Y p') (hc : p.c ≠ p'.c) :
    ∃ x : X.Scalar, D = x • A ∧ Y = x • G := by
  obtain ⟨hT1, hT2⟩ := Prod.mk.inj h
  simp only [hX.addPoint, hX.baseMul, hX.mulPoint, hX.scalarNegate] at hT1 hT2
  exact ⟨Sigma.extract p.c p.z p'.c p'.z, Sigma.eq_extract_smul hT2 hc, Sigma.eq_extract_smul hT1 hc⟩

end Sound

/-- **The sigma proofs are complete and specially sound, and have one encoding.** -/
theorem sigmaProofs_correct {X : External} [Field X.Scalar] [AddCommGroup X.Point]
    [Module X.Scalar X.Point] {G : X.Point} (hX : X.IsCurve G) (hcanon : CanonicalScalars X) :
    (∀ x i ctA D proof, proveDecryptShare X ⟨i, x⟩ ctA = some (D, proof) →
      verifyDecryptShare X ctA i D (x • G) proof = true)
    ∧ (∀ x i ctA A k, x ≠ 0 → X.parsePubKey ctA = some A → A ≠ 0 →
      deriveDLEQNonce X i x A (x • A) (x • G) = some k →
      ∃ D proof, proveDecryptShare X ⟨i, x⟩ ctA = some (D, proof))
    ∧ (∀ r chainID submitter a nonce body k, X.parsePubKey a = some (r • G) →
      deriveEncPoKNonce X r chainID submitter a nonce body = some k →
      ∃ proof, proveEncKeyPoK X r chainID submitter a nonce body = some proof
        ∧ proof.verify X chainID a submitter nonce body = true)
    ∧ (∀ ctA D A Dpt i i' Y p p', X.parsePubKey ctA = some A → X.parsePubKey D = some Dpt →
      verifyDecryptShare X ctA i D Y p = true → verifyDecryptShare X ctA i' D Y p' = true →
      dleqCommitments X A Dpt Y p = dleqCommitments X A Dpt Y p' → p.c ≠ p'.c →
      ∃ x : X.Scalar, Dpt = x • A ∧ Y = x • G)
    ∧ (∀ p, parseDLEQProof X (Node.marshalDLEQProof p) = some p)
    ∧ (∀ b b' p, parseDLEQProof X b = some p → parseDLEQProof X b' = some p → b = b')
    ∧ (∀ b b' p, parseEncKeyPoK X b = some p → parseEncKeyPoK X b' = some p → b = b') := by
  refine ⟨fun x i ctA D proof h => proveDecryptShare_verified hX h,
    fun x i ctA A k hx hA hA0 hk => exists_proveDecryptShare hX hx hA hA0 hk,
    fun r chainID submitter a nonce body k ha hk => exists_proveEncKeyPoK hX ha hk,
    fun ctA D A Dpt i i' Y p p' _ _ _ _ h hc => dleq_extract hX h hc, parse_marshalDLEQProof hX,
    fun b b' p h h' => ?_, fun b b' p h h' => ?_⟩
  · rw [parseDLEQProof_some hcanon h, parseDLEQProof_some hcanon h']
  · rw [parseEncKeyPoK_some hcanon h, parseEncKeyPoK_some hcanon h']

/-- A share proves its part of a ciphertext. -/
theorem sigmaProofs_correct_three : ∃ D proof,
    proveDecryptShare tailScheme shareThree (encodePoint 5) = some (D, proof)
    ∧ verifyDecryptShare tailScheme (encodePoint 5) 1 D (shareThree.xi • tailBase) proof
      = true := by
  have hsome : (proveDecryptShare tailScheme shareThree (encodePoint 5)).isSome = true := by
    decide +kernel
  obtain ⟨⟨D, proof⟩, hproof⟩ := Option.isSome_iff_exists.mp hsome
  exact ⟨D, proof, hproof, (sigmaProofs_correct tailScheme_isCurve
    tailScheme_encodings.canonical).1 shareThree.xi 1 (encodePoint 5) D proof hproof⟩

end EncMempool
