import Limonata.EncMempool.Curve
import Limonata.Lib.Shamir

/-!
# x/encmempool — threshold decryption from the dealers' polynomials

The dealer and keyper sides of the scheme: polynomial evaluation, hybrid encryption and the sealing
of shares with it, the derivation of a keyper's shares from the dealings it was sent, and its
partial decryptions. Over a curve each of the four loops is an evaluation: Horner's rule in the
scalars and in the exponent, the coefficient-wise sum of the commitments and Lagrange's formula at
zero. So any `t` partials combine to the shared secret the ciphertext was sealed with.
-/

namespace EncMempool

open Machine

section Scheme

variable (X : External)

/-- The hybrid-encrypted body of `threshold.Encrypt`. -/
structure Ciphertext where
  a : Bytes
  nonce : Bytes
  body : Bytes
  deriving DecidableEq

/-- A keyper's secret share at `index`. -/
structure Share (X : External) where
  index : Nat
  xi : X.Scalar

/-- What `randScalar` draws. -/
abbrev RandScalar := { r : X.Scalar // X.scalarIsZero r = false }

/-- A nonce read from the random source. -/
abbrev Nonce := { n : Bytes // n.length = nonceSize }

/-- The value at `z` of the polynomial with these coefficients, by Horner's rule. -/
def evalPoly (z : Nat) : List X.Scalar → Option X.Scalar
  | [] => none
  | a :: as =>
    match evalPoly z as with
    | none => some a
    | some acc => some (X.scalarAdd (X.scalarMul acc (scalarFromUint X z)) a)

/-- Encrypt `msg` to the key `pub`, over a sealing of AES-256-GCM and the drawn randomness. -/
def encryptWithR (gcmSeal : Bytes → Bytes → Bytes → Bytes) (pub msg : Bytes) (r : RandScalar X)
    (nonce : Nonce) : Option Ciphertext :=
  (X.parsePubKey pub).map fun Y =>
    { a := X.serializeCompressed (X.baseMul r.1)
      nonce := nonce.1
      body := gcmSeal (X.sha256 (X.serializeCompressed (X.mulPoint r.1 Y))) nonce.1 msg }

/-- A partial decryption of the ciphertext point `ctA`. -/
def computeShare (s : Share X) (ctA : Bytes) : Option (Nat × Bytes) :=
  (X.parsePubKey ctA).map fun A => (s.index, X.serializeCompressed (X.mulPoint s.xi A))

/-- Seal a share to a member's encryption key. -/
def encryptShareTo (gcmSeal : Bytes → Bytes → Bytes → Bytes) (memberEncPub : Bytes)
    (share : X.Scalar) (r : RandScalar X) (nonce : Nonce) : Option Ciphertext :=
  encryptWithR X gcmSeal memberEncPub (X.scalarBytes share) r nonce

/-- Open a share sealed to the holder of `encPriv`. -/
def decryptShareFrom (encPriv : X.Scalar) (memberIndex : Nat) (ct : Ciphertext) :
    Option X.Scalar := do
  let ds ← computeShare X ⟨memberIndex, encPriv⟩ ct.a
  let S ← X.parsePubKey ds.2
  let plain ← decrypt X S ct.nonce ct.body
  if plain.length ≠ 32 then none
  else
    let s := X.scalarSetBytes plain
    if s.2 then none else some s.1

/-- The sum of the shares the qualified dealers sealed at `p`, on top of `acc`. No dealer leaves
nothing to sum, and a missing dealing or share, or one that does not open, is an error. -/
def deriveShareAt (encPriv : X.Scalar) (p : Nat) (dealings : Nat → Option Dealing) :
    List Nat → Option X.Scalar → Option X.Scalar
  | [], acc => acc
  | dealer :: rest, acc => do
    let d ← dealings dealer
    let e ← d.encShares.find? (fun e => e.memberIndex = p)
    let s ← decryptShareFrom X encPriv p ⟨e.a, e.nonce, e.body⟩
    deriveShareAt encPriv p dealings rest
      (match acc with
        | none => some s
        | some sum => some (X.scalarAdd sum s))

/-- A keyper's final shares, one for each of its evaluation points. -/
def deriveShares (encPriv : X.Scalar) (qual : List Nat) (dealings : Nat → Option Dealing) :
    List Nat → Option (List (Share X))
  | [] => some []
  | p :: ps => do
    let xi ← deriveShareAt X encPriv p dealings qual none
    let rest ← deriveShares encPriv qual dealings ps
    some (⟨p, xi⟩ :: rest)

/-- The partial decryptions of a list of shares. -/
def computeShares (ctA : Bytes) : List (Share X) → Option (List (Nat × Bytes))
  | [] => some []
  | s :: ss => do
    let d ← computeShare X s ctA
    let rest ← computeShares ctA ss
    some (d :: rest)

end Scheme

/-! ## The loops over a curve -/

section Curve

variable {X : External} [Field X.Scalar] [AddCommGroup X.Point] [Module X.Scalar X.Point]
  {G : X.Point}
variable {z i n : Nat} {as : List X.Scalar} {indices qual : List Nat} {shares : List (Nat × Bytes)}
  {A : X.Point} {r : RandScalar X} {nonce : Nonce} {ct : Ciphertext} {encPriv : X.Scalar}
  {polys : Nat → List X.Scalar} {stored : Nat → Option Dealing} {V : List X.Point}

theorem foldl_mul_eq_prod {F ι : Type} [CommMonoid F] (f : ι → F) (l : List ι) (a : F) :
    l.foldl (fun acc j => acc * f j) a = a * (l.map f).prod := by
  induction l generalizing a with
  | nil => simp
  | cons j js ih => rw [List.foldl_cons, ih, List.map_cons, List.prod_cons, mul_assoc]

section

variable (hX : X.IsCurve G)

include hX

theorem scalarFromUint_eq {v : Nat} (hv : v < 2 ^ 32) : scalarFromUint X v = (v : X.Scalar) := by
  rw [scalarFromUint, wrap32_of_lt hv, hX.scalarOfUint32 v hv]

theorem evalPoly_eq_horner (hz : z < 2 ^ 32) (hne : as ≠ []) :
    evalPoly X z as = some (Shamir.horner (z : X.Scalar) as) := by
  induction as with
  | nil => exact absurd rfl hne
  | cons a as ih =>
    cases as with
    | nil => simp [evalPoly, Shamir.horner]
    | cons b bs =>
      rw [evalPoly, ih (List.cons_ne_nil b bs)]
      simp only [hX.scalarAdd, hX.scalarMul, scalarFromUint_eq hX hz]
      rw [mul_comm]
      rfl

theorem sharePubKey_eq_horner (hz : z < 2 ^ 32) {cs : List X.Point} (hne : cs ≠ []) :
    sharePubKey X z cs = some (Shamir.horner (z : X.Scalar) cs) := by
  induction cs with
  | nil => exact absurd rfl hne
  | cons c cs ih =>
    cases cs with
    | nil => simp [sharePubKey, Shamir.horner]
    | cons d ds =>
      rw [sharePubKey, ih (List.cons_ne_nil d ds)]
      simp only [hX.addPoint, hX.mulPoint, scalarFromUint_eq hX hz]
      rfl

theorem sharePubKey_commitments (hz : z < 2 ^ 32) (hne : as ≠ []) :
    sharePubKey X z (as.map X.baseMul) = some (Shamir.horner (z : X.Scalar) as • G) := by
  have hmap : as.map X.baseMul = as.map (· • G) := List.map_congr_left fun a _ => hX.baseMul a
  rw [hmap, sharePubKey_eq_horner hX hz (by simpa using hne), Shamir.horner_smul]

theorem filter_map_cast [DecidableEq X.Scalar] (hrange : ∀ j ∈ indices, j < 2 ^ 32)
    (hi : i < 2 ^ 32) :
    (indices.map (fun j : Nat => (j : X.Scalar))).filter (· ≠ (i : X.Scalar))
      = (indices.filter (· ≠ i)).map (fun j : Nat => (j : X.Scalar)) := by
  rw [List.filter_map]
  congr 1
  refine List.filter_congr fun j hj => ?_
  have hiff : (j : X.Scalar) = i ↔ j = i :=
    ⟨hX.index_inj j i (hrange j hj) hi, fun h => by rw [h]⟩
  simp [hiff]

open Classical in
theorem lagrangeAtZero_eq (hrange : ∀ j ∈ indices, j < 2 ^ 32) (hi : i < 2 ^ 32) :
    lagrangeAtZero X i indices
      = Shamir.lagrangeAtZero (indices.map (fun j : Nat => (j : X.Scalar))) i := by
  have hcast : ∀ j ∈ indices.filter (· ≠ i), scalarFromUint X j = (j : X.Scalar) :=
    fun j hj => scalarFromUint_eq hX (hrange j (List.mem_filter.mp hj).1)
  have hone : scalarFromUint X 1 = 1 := by rw [scalarFromUint_eq hX (by decide), Nat.cast_one]
  simp only [lagrangeAtZero, hX.scalarMul, hX.scalarInverse, hX.scalarAdd, hX.scalarNegate,
    foldl_mul_eq_prod, hone, one_mul, Shamir.lagrangeAtZero, filter_map_cast hX hrange hi,
    List.map_map]
  congr 2
  · exact List.map_congr_left hcast
  · congr 1
    refine List.map_congr_left fun j hj => ?_
    rw [hcast j hj, scalarFromUint_eq hX hi, Function.comp_apply, sub_eq_add_neg]

theorem recoverTerms_eq {D : Nat → X.Point}
    (hparse : ∀ s ∈ shares, X.parsePubKey s.2 = some (D s.1)) :
    recoverTerms X indices shares
      = some (shares.map fun s => lagrangeAtZero X s.1 indices • D s.1) := by
  induction shares with
  | nil => rfl
  | cons s ss ih =>
    rw [List.forall_mem_cons] at hparse
    obtain ⟨i, d⟩ := s
    rw [recoverTerms, hparse.1, Option.bind_some, ih hparse.2, Option.map_some, hX.mulPoint,
      List.map_cons]

theorem foldl_addPoint (ts : List X.Point) (acc : X.Point) :
    ts.foldl X.addPoint acc = acc + ts.sum := by
  induction ts generalizing acc with
  | nil => simp
  | cons t ts ih => rw [List.foldl_cons, ih, hX.addPoint, List.sum_cons, add_assoc]

/-- Enough partials of one polynomial, at distinct indices, combine to its secret's multiple. -/
theorem recover_of_partials (hne : shares ≠ []) (hnodup : (shares.map Prod.fst).Nodup)
    (hrange : ∀ s ∈ shares, s.1 < 2 ^ 32) (hlen : as.length ≤ shares.length)
    (hparse : ∀ s ∈ shares, X.parsePubKey s.2 = some (Shamir.horner (s.1 : X.Scalar) as • A)) :
    recover X shares = some (as.headD 0 • A) := by
  classical
  have hindices : ∀ j ∈ shares.map Prod.fst, j < 2 ^ 32 := by
    intro j hj
    obtain ⟨s, hs, rfl⟩ := List.mem_map.mp hj
    exact hrange s hs
  have hcast : ((shares.map Prod.fst).map (fun j : Nat => (j : X.Scalar))).Nodup :=
    hnodup.map_on fun i hi j hj h => hX.index_inj i j (hindices i hi) (hindices j hj) h
  have hcount : as.length
      ≤ ((shares.map Prod.fst).map (fun j : Nat => (j : X.Scalar))).length := by simpa using hlen
  have hsum := Shamir.reconstruct_smul hcast hcount A
  rw [recover, recoverTerms_eq hX (D := fun i => Shamir.horner (i : X.Scalar) as • A) hparse,
    Option.bind_some]
  have hterms : (shares.map fun s => lagrangeAtZero X s.1 (shares.map Prod.fst)
      • Shamir.horner (s.1 : X.Scalar) as • A).sum = as.headD 0 • A := by
    rw [← hsum, List.map_map, List.map_map]
    congr 1
    refine List.map_congr_left fun s hs => ?_
    rw [lagrangeAtZero_eq hX hindices (hrange s hs)]
    rfl
  cases shares with
  | nil => exact absurd rfl hne
  | cons s ss =>
    simp only [List.map_cons, foldl_addPoint hX, ← List.sum_cons] at hterms ⊢
    rw [hterms]

end

/-! ## Sealed shares -/

/-- AES-GCM opens what it sealed. -/
def OpensSealed (X : External) (gcmSeal : Bytes → Bytes → Bytes → Bytes) : Prop :=
  ∀ key nonce msg, nonce.length = nonceSize → X.gcmOpen key nonce (gcmSeal key nonce msg) = some msg

variable {gcmSeal : Bytes → Bytes → Bytes → Bytes}

section

variable (hX : X.IsCurve G)

include hX

theorem RandScalar.ne_zero (r : RandScalar X) : r.1 ≠ 0 := by
  intro h
  have hzero := (hX.scalarIsZero r.1).mpr h
  rw [r.2] at hzero
  cases hzero

section

variable (hseal : OpensSealed X gcmSeal)

include hseal

/-- What a ciphertext holds: the point of its randomness, and a body that the multiple of the key
by that randomness opens. -/
theorem encryptWithR_spec {pub msg : Bytes} (h : encryptWithR X gcmSeal pub msg r nonce = some ct) :
    X.parsePubKey ct.a = some (r.1 • G)
      ∧ ∃ Y, X.parsePubKey pub = some Y ∧ decrypt X (r.1 • Y) ct.nonce ct.body = some msg := by
  obtain ⟨Y, hY, rfl⟩ := Option.map_eq_some_iff.mp h
  have hA : r.1 • G ≠ 0 := smul_ne_zero (RandScalar.ne_zero hX r) hX.base_ne
  refine ⟨?_, Y, hY, ?_⟩
  · show X.parsePubKey (X.serializeCompressed (X.baseMul r.1)) = _
    rw [hX.baseMul, hX.encodes _ hA]
  · have hlen : ¬ nonce.1.length ≠ nonceSize := not_not.mpr nonce.2
    simp only [decrypt, if_neg hlen, hX.mulPoint]
    exact hseal _ _ _ nonce.2

theorem decryptShareFrom_encryptShareTo {share : X.Scalar} (p : Nat)
    (h : encryptShareTo X gcmSeal (X.serializeCompressed (X.baseMul encPriv)) share r nonce
      = some ct) :
    decryptShareFrom X encPriv p ct = some share := by
  obtain ⟨hA, Y, hY, hopen⟩ := encryptWithR_spec hX hseal h
  obtain rfl := hX.eq_of_parse hY
  have hpub : X.baseMul encPriv ≠ 0 := hX.ne_zero_of_parse (by rw [hY]; rfl)
  -- both sides hold the point `encPriv * r * G`, which is not the identity
  have hshared : encPriv • r.1 • G = r.1 • X.baseMul encPriv := by
    rw [hX.baseMul, smul_comm]
  have hne : encPriv • r.1 • G ≠ 0 := by
    rw [hshared]
    exact smul_ne_zero (RandScalar.ne_zero hX r) hpub
  have hparse := (hX.encodes _ hne).trans (congrArg some hshared)
  obtain ⟨hlen, hset⟩ := hX.scalarBytes share
  simp [decryptShareFrom, computeShare, hA, hX.mulPoint, hparse, hopen, hlen, hset]

/-- Dealer `d` sealed the value at `p` of its polynomial to the key `encPub`. -/
def SealedAt (gcmSeal : Bytes → Bytes → Bytes → Bytes) (encPub : Bytes) (coeffs : List X.Scalar)
    (p : Nat) (d : Dealing) : Prop :=
  ∃ share r nonce ct, evalPoly X p coeffs = some share
    ∧ encryptShareTo X gcmSeal encPub share r nonce = some ct
    ∧ d.encShares.find? (fun e => e.memberIndex = p) = some ⟨p, ct.a, ct.nonce, ct.body⟩

/-- The share at `p` of the polynomials of the dealers `qual`; the secret is the one at zero. -/
def jointShare (polys : Nat → List X.Scalar) (qual : List Nat) (p : Nat) : X.Scalar :=
  (qual.map fun i => Shamir.horner (p : X.Scalar) (polys i)).sum

theorem deriveShareAt_eq {p : Nat} (hp : p < 2 ^ 32) (hpolys : ∀ i ∈ qual, polys i ≠ [])
    (hsealed : ∀ i ∈ qual, ∃ d, stored i = some d
      ∧ SealedAt gcmSeal (X.serializeCompressed (X.baseMul encPriv)) (polys i) p d)
    (acc : Option X.Scalar) (hsome : acc = none → qual ≠ []) :
    deriveShareAt X encPriv p stored qual acc
      = some (acc.getD 0 + jointShare polys qual p) := by
  induction qual generalizing acc with
  | nil =>
    cases acc with
    | none => exact absurd rfl (hsome rfl)
    | some sum => simp [deriveShareAt, jointShare]
  | cons i is ih =>
    rw [List.forall_mem_cons] at hpolys hsealed
    obtain ⟨d, hd, share, r, nonce, ct, hshare, hct, hfind⟩ := hsealed.1
    obtain rfl : share = Shamir.horner (p : X.Scalar) (polys i) :=
      Option.some.inj (hshare.symm.trans (evalPoly_eq_horner hX hp hpolys.1))
    have hopen := decryptShareFrom_encryptShareTo hX hseal p hct
    rw [deriveShareAt, hd]
    simp only [Option.bind_eq_bind, Option.bind_some, hfind, hopen]
    -- the first share starts the sum, a later one is added to it
    cases acc with
    | none =>
      refine (ih hpolys.2 hsealed.2 (some _) nofun).trans ?_
      simp [jointShare]
    | some sum =>
      refine (ih hpolys.2 hsealed.2 (some _) nofun).trans ?_
      simp [jointShare, hX.scalarAdd, add_assoc]

theorem deriveShares_eq {points : List Nat} (hqual : qual ≠ []) (hpolys : ∀ i ∈ qual, polys i ≠ [])
    (hrange : ∀ p ∈ points, p < 2 ^ 32)
    (hsealed : ∀ p ∈ points, ∀ i ∈ qual, ∃ d, stored i = some d
      ∧ SealedAt gcmSeal (X.serializeCompressed (X.baseMul encPriv)) (polys i) p d) :
    deriveShares X encPriv qual stored points
      = some (points.map fun p => ⟨p, jointShare polys qual p⟩) := by
  induction points with
  | nil => rfl
  | cons p ps ih =>
    rw [List.forall_mem_cons] at hrange hsealed
    have hfirst := deriveShareAt_eq hX hseal hrange.1 hpolys hsealed.1 none fun _ => hqual
    rw [Option.getD_none, zero_add] at hfirst
    rw [deriveShares, hfirst, ih hrange.2 hsealed.2]
    rfl

end

/-! ## The joint polynomial -/

theorem parseCommitmentPoints_serialize
    (hvalid : (V.map X.serializeCompressed).all (validCompressedPoint X) = true) :
    parseCommitmentPoints X (V.map X.serializeCompressed) = some V := by
  induction V with
  | nil => rfl
  | cons v vs ih =>
    rw [List.map_cons, List.all_cons, Bool.and_eq_true] at hvalid
    rw [List.map_cons, parseCommitmentPoints, hX.encodes v (hX.ne_zero_of_parse hvalid.1),
      Option.bind_some, ih hvalid.2, Option.map_some]

theorem horner_aggregateCommitments {vs : List (List X.Point)}
    (h : aggregateCommitments X vs = some V) (hlen : ∀ v ∈ vs, v.length = n) (z : X.Scalar) :
    V.length = n ∧ Shamir.horner z V = (vs.map (Shamir.horner z)).sum := by
  have hadd : X.addPoint = (· + ·) := funext₂ hX.addPoint
  cases vs with
  | nil => cases h
  | cons v vs =>
    rw [List.forall_mem_cons] at hlen
    cases h
    rw [hadd]
    exact ⟨Shamir.length_foldl_zipWith_add hlen.1 hlen.2,
      Shamir.horner_foldl_zipWith_add z hlen.1 hlen.2⟩

end

omit [AddCommGroup X.Point] [Module X.Scalar X.Point] in
theorem exists_jointPoly (hqual : qual ≠ []) (hlen : ∀ i ∈ qual, (polys i).length = n) :
    ∃ as : List X.Scalar, as.length = n
      ∧ ∀ p : Nat, Shamir.horner (p : X.Scalar) as = jointShare polys qual p := by
  cases qual with
  | nil => exact absurd rfl hqual
  | cons i is =>
    rw [List.forall_mem_cons] at hlen
    have hrest : ∀ w ∈ is.map polys, w.length = n := by
      intro w hw
      obtain ⟨j, hj, rfl⟩ := List.mem_map.mp hw
      exact hlen.2 j hj
    refine ⟨_, Shamir.length_foldl_zipWith_add hlen.1 hrest, fun p => ?_⟩
    rw [Shamir.horner_foldl_zipWith_add _ hlen.1 hrest, List.map_map]
    rfl

/-- What finalization leaves of the committed polynomials: points whose value in the exponent is
the joint share, the first of them being the public key. -/
theorem finalizePublicWeighted_commits (hX : X.IsCurve G) {members : List Nat} {degree : Nat}
    {dealings : List PublicDealing} {disqualified : List Nat} {weightOf : Nat → Nat}
    {minQualWeight : Nat} {res : PublicResult}
    (hfin : finalizePublicWeighted X members degree dealings disqualified weightOf minQualWeight
      = .ok res)
    (hpolys : ∀ i ∈ res.qual, dealingPoints X degree dealings i = some ((polys i).map X.baseMul)) :
    1 ≤ degree ∧ res.qual ≠ [] ∧ (∀ i ∈ res.qual, (polys i).length = degree)
      ∧ ∃ V, parseCommitmentPoints X res.publicCommitments = some V ∧ V ≠ []
        ∧ X.parsePubKey res.pub = some (V.headD 0)
        ∧ ∀ p : Nat, Shamir.horner (p : X.Scalar) V = jointShare polys res.qual p • G := by
  have hdegree : 1 ≤ degree := by
    unfold finalizePublicWeighted at hfin
    split_ifs at hfin with hlt
    exact Nat.not_lt.mp hlt
  obtain ⟨-, -, V, hV, hcomm, hpub, hvalid⟩ := finalizePublicWeighted_spec hfin
  have hvecs : res.qual.filterMap (dealingPoints X degree dealings)
      = res.qual.map (fun i => (polys i).map X.baseMul) := by
    rw [← List.filterMap_eq_map]
    exact List.filterMap_congr hpolys
  have hlen : ∀ i ∈ res.qual, (polys i).length = degree := by
    intro i hi
    obtain ⟨d, -, -, hd, hparse⟩ := exists_of_dealingPoints (hpolys i hi)
    have hparsed := parseCommitmentPoints_length hparse
    rwa [List.length_map, hd] at hparsed
  have hqual : res.qual ≠ [] := by
    rintro hnil
    rw [hnil] at hV
    cases hV
  rw [hvecs] at hV
  have hvlen : ∀ v ∈ res.qual.map (fun i => (polys i).map X.baseMul), v.length = degree := by
    intro v hv
    obtain ⟨i, hi, rfl⟩ := List.mem_map.mp hv
    rw [List.length_map, hlen i hi]
  have hagg := horner_aggregateCommitments hX hV hvlen
  have hVne : V ≠ [] := by
    rintro rfl
    have := (hagg 0).1
    rw [List.length_nil] at this
    omega
  rw [hcomm] at hvalid
  refine ⟨hdegree, hqual, hlen, V, ?_, hVne, ?_, fun p => ?_⟩
  · rw [hcomm, parseCommitmentPoints_serialize hX hvalid]
  · cases V with
    | nil => exact absurd rfl hVne
    | cons v vs =>
      rw [List.map_cons, List.all_cons, Bool.and_eq_true] at hvalid
      rw [hpub, hcomm]
      exact hX.encodes v (hX.ne_zero_of_parse hvalid.1)
  · have hmap : ∀ i, (polys i).map X.baseMul = (polys i).map (· • G) :=
      fun i => List.map_congr_left fun a _ => hX.baseMul a
    rw [(hagg p).2, List.map_map, jointShare, List.sum_smul, List.map_map]
    congr 1
    refine List.map_congr_left fun i _ => ?_
    simp only [Function.comp_apply, hmap, Shamir.horner_smul]

omit [Field X.Scalar] [AddCommGroup X.Point] [Module X.Scalar X.Point] in
theorem computeShares_eq {ctA : Bytes} (hA : X.parsePubKey ctA = some A) (shares : List (Share X)) :
    computeShares X ctA shares
      = some (shares.map fun s => (s.index, X.serializeCompressed (X.mulPoint s.xi A))) := by
  induction shares with
  | nil => rfl
  | cons s ss ih =>
    rw [computeShares, ih, computeShare, hA]
    rfl

/-- Threshold decryption is correct. Let finalization of dealings that commit to polynomials yield a
key. A keyper the qualified dealers sealed its values to derives the joint share at each of its
points, and the share key there is the committed joint share. A message can be encrypted to the key,
and the partials of the joint shares at any distinct points, at least as many as the polynomials
have coefficients and none of them the identity, combine in any order to the shared secret, which
decrypts the message. -/
theorem thresholdDecryption_correct (hX : X.IsCurve G) (hseal : OpensSealed X gcmSeal)
    {members : List Nat} {degree : Nat} {dealings : List PublicDealing} {disqualified : List Nat}
    {weightOf : Nat → Nat} {minQualWeight : Nat} {res : PublicResult}
    (hfin : finalizePublicWeighted X members degree dealings disqualified weightOf minQualWeight
      = .ok res)
    {polys : Nat → List X.Scalar}
    (hpolys : ∀ i ∈ res.qual, dealingPoints X degree dealings i = some ((polys i).map X.baseMul)) :
    ∃ V, parseCommitmentPoints X res.publicCommitments = some V
      ∧ (∀ encPriv stored points, (∀ p ∈ points, 1 ≤ p ∧ p < 2 ^ 32) →
        (∀ p ∈ points, ∀ i ∈ res.qual, ∃ d, stored i = some d
          ∧ SealedAt gcmSeal (X.serializeCompressed (X.baseMul encPriv)) (polys i) p d) →
        deriveShares X encPriv res.qual stored points
          = some (points.map fun p => ⟨p, jointShare polys res.qual p⟩))
      ∧ (∀ p, 1 ≤ p → p < 2 ^ 32 →
        sharePubKey X p V = some (X.baseMul (jointShare polys res.qual p)))
      ∧ ∀ msg r nonce, ∃ ct, encryptWithR X gcmSeal res.pub msg r nonce = some ct
        ∧ ∀ points : List Nat, points.Nodup → degree ≤ points.length →
          (∀ p ∈ points, 1 ≤ p ∧ p < 2 ^ 32) →
          (∀ p ∈ points, jointShare polys res.qual p ≠ 0) →
          ∃ partials shared,
            computeShares X ct.a (points.map fun p => ⟨p, jointShare polys res.qual p⟩)
              = some partials
            ∧ recover X partials = some shared
            ∧ shared = X.mulPoint (jointShare polys res.qual 0) (X.baseMul r.1)
            ∧ shared = X.mulPoint r.1 (V.headD 0)
            ∧ decrypt X shared ct.nonce ct.body = some msg := by
  obtain ⟨hdegree, hqual, hlen, V, hparse, hV, hpub, hhorner⟩ :=
    finalizePublicWeighted_commits hX hfin hpolys
  have hpolysne : ∀ i ∈ res.qual, polys i ≠ [] := by
    intro i hi hnil
    have hzero := hlen i hi
    rw [hnil, List.length_nil] at hzero
    omega
  refine ⟨V, hparse, ?_, ?_, ?_⟩
  · intro encPriv stored points hrange hsealed
    exact deriveShares_eq hX hseal hqual hpolysne (fun p hp => (hrange p hp).2) hsealed
  · intro p _ hp
    rw [sharePubKey_eq_horner hX hp hV, hhorner, hX.baseMul]
  · intro msg r nonce
    have henc : ∃ ct, encryptWithR X gcmSeal res.pub msg r nonce = some ct := by
      rw [encryptWithR, hpub]
      exact ⟨_, rfl⟩
    obtain ⟨ct, hct⟩ := henc
    refine ⟨ct, hct, fun points hnodup hcount hrange hne => ?_⟩
    obtain ⟨hA, Y, hY, hopen⟩ := encryptWithR_spec hX hseal hct
    obtain rfl := Option.some.inj (hpub.symm.trans hY)
    obtain ⟨as, haslen, has⟩ := exists_jointPoly hqual hlen
    have hAne : r.1 • G ≠ 0 := smul_ne_zero (RandScalar.ne_zero hX r) hX.base_ne
    -- the secret is the joint polynomial at zero, and the key commits to it
    have hzero : as.headD 0 = jointShare polys res.qual 0 := by
      have hat := has 0
      rwa [Nat.cast_zero, Shamir.horner_zero] at hat
    have hkey : V.headD 0 = jointShare polys res.qual 0 • G := by
      have hat := hhorner 0
      rwa [Nat.cast_zero, Shamir.horner_zero] at hat
    have hshared : jointShare polys res.qual 0 • r.1 • G = r.1 • V.headD 0 := by
      rw [hkey, smul_comm]
    refine ⟨_, jointShare polys res.qual 0 • r.1 • G, computeShares_eq hA _, ?_, ?_, ?_, ?_⟩
    · rw [← hzero]
      apply recover_of_partials hX
      · simp only [ne_eq, List.map_eq_nil_iff]
        rintro rfl
        rw [List.length_nil] at hcount
        omega
      · simpa [Function.comp_def] using hnodup
      · simpa using fun p hp => (hrange p hp).2
      · simpa [haslen] using hcount
      · simp only [List.map_map, List.forall_mem_map, Function.comp_apply, hX.mulPoint, has]
        exact fun p hp => hX.encodes _ (smul_ne_zero (hne p hp) hAne)
    · rw [hX.mulPoint, hX.baseMul]
    · rw [hX.mulPoint, hshared]
    · rw [hshared, hopen]

end Curve

/-! ## Two dealers -/

namespace Sample

/-- The compressed encodings of the points of the two samples below. -/
def schemePoints : List (Nat × Bytes) :=
  [(1, beBytes 33 0x0279BE667EF9DCBBAC55A06295CE870B07029BFCDB2DCE28D959F2815B16F81798),
   (2, beBytes 33 0x02C6047F9441ED7D6D3045406E95C07CD85C778E4B8CEF3CA7ABAC09B95C709EE5),
   (3, beBytes 33 0x02F9308A019258C31049344F85F89D5229B531C845836F99B08601F113BCE036F9),
   (5, beBytes 33 0x022F8BDE4D1A07209355B4A7250A5C5128E88B84BDDC619AB7CBA8D569B240EFE4),
   (7, beBytes 33 0x025CBDF0646E5DB4EAA398F365F2EA7A0E3D419B7E0330E39CE92BDDEDCAC4F9BC),
   (15, beBytes 33 0x02D7924D4F7D43EA965A465AE3095FF41131E5946F3C85F79E44ADBCF8E27E080E),
   (35, beBytes 33 0x03605BDB019981718B986D0F07E834CB0D9DEB8360FFB7F61DF982345EF27A7479),
   (60, beBytes 33 0x0301257E93A78A5B7D8FE0CF28FF1D8822350C778AC8A30E57D2ACFC4D5FB8C192),
   (85, beBytes 33 0x037962414450C76C1689C7B48F8202EC37FB224CF5AC0BFA1570328A8A3D7C77AB),
   (groupOrder - 1, beBytes 33 0x0379BE667EF9DCBBAC55A06295CE870B07029BFCDB2DCE28D959F2815B16F81798),
   (groupOrder - 5, beBytes 33 0x032F8BDE4D1A07209355B4A7250A5C5128E88B84BDDC619AB7CBA8D569B240EFE4)]

/-- The encoding of a listed point. -/
def schemePoint (k : Nat) : Bytes := ((schemePoints.find? (fun p => p.1 = k)).map Prod.snd).getD []

/-- The keys derived from the points `15 G`, `35 G` and `-5 G`. -/
def shareKdf : Bytes := beBytes 32 0x736510E0A2977668353B84EBB7FFA6B902E674A355038534E605D3B73EB0CF16

@[inherit_doc shareKdf]
def pairKdf : Bytes := beBytes 32 0x3725C50BAB9908983CD2819398874DB7A1B9B01D350DD84A1DBC82D7439E841F

@[inherit_doc shareKdf]
def rootKdf : Bytes := beBytes 32 0xBC73DBAF587B08FE1E9AD161794E503A55DFA666261C5B7F5E9CEC6E4A46FB5F

/-- The boxes of the samples as `(key, nonce, message, body)`. -/
def schemeBoxes : List (Bytes × Bytes × Bytes × Bytes) :=
  [(shareKdf, beBytes 12 1, beBytes 32 7, beBytes 48
      0x0646A6D67D30C5E0640BF19B2F1068153259BB4DA25F1BBFF14BFCA2020B4337B3B89AA63D2F598C1CD55C5E3F39915C),
   (shareKdf, beBytes 12 2, beBytes 32 5, beBytes 48
      0x1D418A6B94A6AC91A5B245860CC5DAA73F1BB06D944DA79E84B574FBF0FB5B2B5A980B008F5E09F659CB7E375C032ED3),
   (pairKdf, beBytes 12 3, bytesOf "hello", beBytes 21 0x6234F7C8101FA9B0D0F2DA0868320B1AB3705C0047),
   (shareKdf, beBytes 12 4, beBytes 32 0, beBytes 48
      0x74B7838F30B7DF38B86FE1570BB71ADD3E74FB3DC2FEB2EBB129AE34EF56E9F049ED252AAE1DE9374957759A52F43769),
   (shareKdf, beBytes 12 5, beBytes 32 1, beBytes 48
      0xFD4AC1EDF328F1D65BB1C14D1F637E139A490294CD332B8D9F0BC6F28D58884AA5EDC64CA4B7436571E53F1BD8656DD9),
   (rootKdf, beBytes 12 6, bytesOf "hello", beBytes 21 0xF29E3A4FA0159C281F84C563DDAC6B74837D17367A)]

def schemeTables : Tables where
  points := schemePoints
  digests := [(schemePoint 15, shareKdf), (schemePoint 35, pairKdf),
    (schemePoint (groupOrder - 5), rootKdf)]
  opened := schemeBoxes.map fun b => ((b.1, b.2.1, b.2.2.2), b.2.2.1)

theorem schemeTables_wellFormed : schemeTables.WellFormed where
  encodings := by decide +kernel
  points := by decide +kernel
  boxes := by decide +kernel
  tags := by decide +kernel

abbrev scheme : External := .ofGroup schemeTables

/-- A share sealed with the randomness `5`, under the nonce and body of a listed box. -/
def sealedShare (p box : Nat) : DkgStoredEncShare :=
  { memberIndex := p, a := schemePoint 5, nonce := beBytes 12 box
    body := ((schemeBoxes.find? (fun b => b.2.1 = beBytes 12 box)).map (fun b => b.2.2.2)).getD [] }

def dealtBy (dealer : Nat) (commitments : List Bytes) (encShares : List DkgStoredEncShare) :
    Dealing :=
  { epoch := 1, dealerIndex := dealer, dealer := [], commitments, encShares }

/-- Two dealers with the polynomials `5 + 2 x` and `2 + 3 x`. -/
def pairDealing : Nat → Option Dealing
  | 1 => some (dealtBy 1 [schemePoint 5, schemePoint 2] [sealedShare 1 1])
  | 2 => some (dealtBy 2 [schemePoint 2, schemePoint 3] [sealedShare 1 2])
  | _ => none

def pairPolys (i : Nat) : List scheme.Scalar :=
  if i = 1 then [((5 : ℕ) : ZMod groupOrder), ((2 : ℕ) : ZMod groupOrder)]
  else [((2 : ℕ) : ZMod groupOrder), ((3 : ℕ) : ZMod groupOrder)]

def pairResult : PublicResult :=
  { pub := schemePoint 7, publicCommitments := [schemePoint 7, schemePoint 5], qual := [1, 2] }

def pairDealings : List PublicDealing :=
  [1, 2].filterMap fun i => (pairDealing i).map fun d => ⟨i, d.commitments⟩

theorem pairDealing_sealed : ∀ i ∈ [1, 2], ∃ d, pairDealing i = some d
    ∧ SealedAt schemeTables.gcmSeal
      (scheme.serializeCompressed (scheme.baseMul (3 : ZMod groupOrder))) (pairPolys i) 1 d := by
  have hrand : scheme.scalarIsZero (5 : ZMod groupOrder) = false := by decide +kernel
  rw [List.forall_mem_cons, List.forall_mem_singleton]
  constructor
  · exact ⟨_, rfl, (7 : ZMod groupOrder), ⟨_, hrand⟩, ⟨beBytes 12 1, rfl⟩, _, rfl, rfl, rfl⟩
  · exact ⟨_, rfl, (5 : ZMod groupOrder), ⟨_, hrand⟩, ⟨beBytes 12 2, rfl⟩, _, rfl, rfl, rfl⟩

/-- One dealer with the polynomial `x - 1`. -/
def rootDealing : Nat → Option Dealing
  | 1 => some (dealtBy 1 [schemePoint (groupOrder - 1), schemePoint 1]
      [sealedShare 1 4, sealedShare 2 5])
  | _ => none

def rootResult : PublicResult :=
  { pub := schemePoint (groupOrder - 1)
    publicCommitments := [schemePoint (groupOrder - 1), schemePoint 1], qual := [1] }

def rootDealings : List PublicDealing :=
  [⟨1, [schemePoint (groupOrder - 1), schemePoint 1]⟩]

end Sample

open Sample

/-- The keyper of point 1 derives the joint share 12 there, and with the share 17 of point 2 it
opens a message encrypted to the key. -/
theorem thresholdDecryption_pair :
    deriveShares scheme (3 : ZMod groupOrder) [1, 2] pairDealing [1]
        = some [⟨1, (12 : ZMod groupOrder)⟩]
      ∧ ∃ ct, encryptWithR scheme schemeTables.gcmSeal pairResult.pub
          (bytesOf "hello") ⟨(5 : ZMod groupOrder), by decide +kernel⟩ ⟨beBytes 12 3, rfl⟩ = some ct
        ∧ ∃ partials shared, computeShares scheme ct.a
            [⟨1, (12 : ZMod groupOrder)⟩, ⟨2, (17 : ZMod groupOrder)⟩] = some partials
          ∧ recover scheme partials = some shared
          ∧ decrypt scheme shared ct.nonce ct.body = some (bytesOf "hello") := by
  have hX := External.ofGroup_isCurve schemeTables_wellFormed
  have hseal : OpensSealed scheme schemeTables.gcmSeal :=
    fun key nonce msg _ => schemeTables_wellFormed.opens key nonce msg
  have hfin : finalizePublicWeighted scheme [1, 2] 2 pairDealings [] (fun _ => 1) 2
      = .ok pairResult := by rfl
  have hpolys : ∀ i ∈ [1, 2], dealingPoints scheme 2 pairDealings i
      = some ((pairPolys i).map scheme.baseMul) := by decide +kernel
  obtain ⟨V, -, hderive, -, hdecrypt⟩ := thresholdDecryption_correct hX hseal hfin hpolys
  have hshare := hderive (3 : ZMod groupOrder) pairDealing [1] (by decide)
    (fun p hp => by
      obtain rfl := List.mem_singleton.mp hp
      exact pairDealing_sealed)
  obtain ⟨ct, hct, hrecover⟩ :=
    hdecrypt (bytesOf "hello") ⟨(5 : ZMod groupOrder), by decide +kernel⟩ ⟨beBytes 12 3, rfl⟩
  obtain ⟨partials, shared, hpartials, hshared, -, -, hmsg⟩ :=
    hrecover [1, 2] (by decide) (by decide) (by decide) (by decide +kernel)
  exact ⟨hshare, ct, hct, partials, shared, hpartials, hshared, hmsg⟩

/-- The joint share at a root of the polynomial is zero: its partial is the point at infinity, whose
encoding does not parse, and the recovery from the two derived shares fails. -/
theorem thresholdDecryption_root :
    finalizePublicWeighted scheme [1] 2 rootDealings [] (fun _ => 1) 1
        = .ok rootResult
      ∧ dealingPoints scheme 2 rootDealings 1
        = some ([(-1 : ZMod groupOrder), (1 : ZMod groupOrder)].map scheme.baseMul)
      ∧ deriveShares scheme (3 : ZMod groupOrder) [1] rootDealing [1, 2]
        = some [⟨1, (0 : ZMod groupOrder)⟩, ⟨2, (1 : ZMod groupOrder)⟩]
      ∧ ∃ ct partials, encryptWithR scheme schemeTables.gcmSeal rootResult.pub
          (bytesOf "hello") ⟨(5 : ZMod groupOrder), by decide +kernel⟩ ⟨beBytes 12 6, rfl⟩ = some ct
        ∧ computeShares scheme ct.a
          [⟨1, (0 : ZMod groupOrder)⟩, ⟨2, (1 : ZMod groupOrder)⟩] = some partials
        ∧ recover scheme partials = none :=
  ⟨rfl, by decide +kernel, rfl, _, _, rfl, rfl, rfl⟩

end EncMempool
