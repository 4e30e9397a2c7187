import Limonata.EncMempool.ShareKeyCover
import Limonata.EncMempool.Threshold

/-!
# x/encmempool — recovery from untrusted partials

`RecoverVerifiedWithKeys` walks a list of partials that anyone may have written to. It drops missing
proofs, indices outside `[1, 2^32)` and indices it already holds, verifies the rest until `t` are
good, and combines those. A cached share key spares the recomputation of the key and a pre-verified
index the verification itself. With a correct cache and flags that the first entry of their index
deserves, both leave the walk as it is; and the walk finds `t` partials whenever `t` distinct
indices have one that verifies.
-/

namespace EncMempool

section Walk

variable (X : External)

/-- `RecoverVerified`: no cache and no pre-verified index. -/
def recoverVerified (comm : List X.Point) (ctA : Bytes) (t : Nat)
    (partials : List (VerifiedShare X)) : Except RecoverError X.Point :=
  recoverVerifiedWithKeys X comm ctA t partials (fun _ => none) (fun _ => false)

/-- Whether a partial has an index in range and a proof that verifies under its share key. -/
def verifies (comm : List X.Point) (ctA : Bytes) (vs : VerifiedShare X) : Bool :=
  match vs.proof, sharePubKey X vs.index comm with
  | some proof, some Y =>
    1 ≤ vs.index && vs.index < 2 ^ 32 && verifyDecryptShare X ctA vs.index vs.d Y proof
  | _, _ => false

/-- The distinct indices with a partial that verifies. -/
def verifiedIndices (comm : List X.Point) (ctA : Bytes) (partials : List (VerifiedShare X)) :
    List Nat :=
  ((partials.filter (verifies X comm ctA)).map VerifiedShare.index).dedup

/-- Whether the walk takes a partial, if its index is new. -/
def accepts (comm : List X.Point) (ctA : Bytes) (cachedKey : Nat → Option Bytes)
    (preVerified : Nat → Bool) (vs : VerifiedShare X) : Prop :=
  ∃ proof, vs.proof = some proof ∧ 1 ≤ vs.index ∧ vs.index < 2 ^ 32
    ∧ (preVerified vs.index = true ∨ ∃ Y, shareKeyFor X comm cachedKey vs.index = some Y
      ∧ verifyDecryptShare X ctA vs.index vs.d Y proof = true)

variable {X} {comm : List X.Point} {ctA : Bytes} {t : Nat} {cachedKey : Nat → Option Bytes}
  {preVerified : Nat → Bool}
variable {vs : VerifiedShare X} {good : List (Nat × Bytes)} {partials : List (VerifiedShare X)}
  {i : Nat}

theorem verifies_iff :
    verifies X comm ctA vs = true ↔ ∃ proof, vs.proof = some proof ∧ 1 ≤ vs.index
      ∧ vs.index < 2 ^ 32 ∧ ∃ Y, sharePubKey X vs.index comm = some Y
      ∧ verifyDecryptShare X ctA vs.index vs.d Y proof = true := by
  unfold verifies
  cases vs.proof with
  | none => simp
  | some proof =>
    cases sharePubKey X vs.index comm with
    | none => simp
    | some Y => simp [and_assoc]

open Classical in
/-- One step of the walk: a partial that is accepted under a new index is taken, any other is
dropped without using up its index. -/
theorem goodPartials_cons (vs : VerifiedShare X) (rest : List (VerifiedShare X))
    (good : List (Nat × Bytes)) (hfull : good.length ≠ t) :
    goodPartials X comm ctA t cachedKey preVerified (vs :: rest) good
      = if accepts X comm ctA cachedKey preVerified vs ∧ vs.index ∉ good.map Prod.fst then
          goodPartials X comm ctA t cachedKey preVerified rest (good ++ [(vs.index, vs.d)])
        else goodPartials X comm ctA t cachedKey preVerified rest good := by
  rw [goodPartials, if_neg hfull]
  cases hproof : vs.proof with
  | none => rw [if_neg (by simp [accepts, hproof])]
  | some proof =>
    by_cases hguard : vs.index < 1 ∨ 2 ^ 32 ≤ vs.index ∨ vs.index ∈ good.map Prod.fst
    · have hdrop : ¬ (accepts X comm ctA cachedKey preVerified vs
          ∧ vs.index ∉ good.map Prod.fst) := by
        rintro ⟨⟨-, -, hlow, hhigh, -⟩, hnew⟩
        obtain h | h | h := hguard
        · omega
        · omega
        · exact hnew h
      simp only [if_pos hguard, if_neg hdrop]
    · obtain ⟨hlow, hhigh, hnew⟩ : 1 ≤ vs.index ∧ vs.index < 2 ^ 32
          ∧ vs.index ∉ good.map Prod.fst := by
        rw [not_or, not_or] at hguard
        exact ⟨by omega, by omega, hguard.2.2⟩
      have htake : accepts X comm ctA cachedKey preVerified vs ∧ vs.index ∉ good.map Prod.fst
          ↔ preVerified vs.index = true ∨ ∃ Y, shareKeyFor X comm cachedKey vs.index = some Y
            ∧ verifyDecryptShare X ctA vs.index vs.d Y proof = true := by
        constructor
        · rintro ⟨⟨proof', hproof', -, -, h⟩, -⟩
          obtain rfl := Option.some.inj (hproof.symm.trans hproof')
          exact h
        · exact fun h => ⟨⟨proof, hproof, hlow, hhigh, h⟩, hnew⟩
      simp only [if_neg hguard, htake]
      by_cases hpre : preVerified vs.index = true
      · simp only [hpre, if_true, true_or]
      · simp only [hpre, if_false, false_or, Bool.false_eq_true]
        cases shareKeyFor X comm cachedKey vs.index with
        | none => simp
        | some Y => simp

theorem goodPartials_full (partials : List (VerifiedShare X)) (hfull : good.length = t) :
    goodPartials X comm ctA t cachedKey preVerified partials good = good := by
  cases partials with
  | nil => rfl
  | cons vs rest => rw [goodPartials, if_pos hfull]

theorem accepts_plain :
    accepts X comm ctA (fun _ => none) (fun _ => false) vs ↔ verifies X comm ctA vs = true := by
  simp [accepts, verifies_iff, shareKeyFor]

/-! ## The fast paths -/

/-- Every cached key is the share key of its index. -/
def CachedKeysRight (comm : List X.Point) (cachedKey : Nat → Option Bytes) : Prop :=
  ∀ i b, cachedKey i = some b → ∃ Y, sharePubKey X i comm = some Y ∧ b = X.serializeCompressed Y

/-- A flagged index that is not held has a first partial that verifies. -/
def FlagsEarned (comm : List X.Point) (ctA : Bytes) (preVerified : Nat → Bool)
    (partials : List (VerifiedShare X)) (held : List Nat) : Prop :=
  ∀ i vs, preVerified i = true → i ∉ held → partials.find? (fun vs => vs.index = i) = some vs →
    verifies X comm ctA vs = true

section

variable (hback : ∀ P Q, X.parsePubKey (X.serializeCompressed P) = some Q → Q = P)
  (hcache : CachedKeysRight comm cachedKey)

include hback hcache

theorem shareKeyFor_of_right (i : Nat) : shareKeyFor X comm cachedKey i = sharePubKey X i comm := by
  unfold shareKeyFor
  cases hkey : cachedKey i with
  | none => rfl
  | some b =>
    obtain ⟨Y, hY, rfl⟩ := hcache i b hkey
    rw [Option.bind_some]
    cases hparse : X.parsePubKey (X.serializeCompressed Y) with
    | none => rfl
    | some Q =>
      rw [hback Y Q hparse, hY]

theorem goodPartials_uncached : goodPartials X comm ctA t cachedKey preVerified partials good
    = goodPartials X comm ctA t (fun _ => none) preVerified partials good := by
  induction partials generalizing good with
  | nil => rfl
  | cons vs rest ih =>
    simp only [goodPartials, shareKeyFor_of_right hback hcache, ih]
    rfl

theorem accepts_iff_verifies {rest : List (VerifiedShare X)} {held : List Nat}
    (hflags : FlagsEarned comm ctA preVerified (vs :: rest) held) (hnew : vs.index ∉ held) :
    accepts X comm ctA cachedKey preVerified vs ↔ verifies X comm ctA vs = true := by
  by_cases hpre : preVerified vs.index = true
  · have hver : verifies X comm ctA vs = true := hflags vs.index vs hpre hnew (by simp)
    obtain ⟨proof, hproof, hlow, hhigh, -⟩ := verifies_iff.mp hver
    exact ⟨fun _ => hver, fun _ => ⟨proof, hproof, hlow, hhigh, .inl hpre⟩⟩
  · rw [verifies_iff]
    simp only [accepts, hpre, false_or, shareKeyFor_of_right hback hcache, Bool.false_eq_true]

theorem goodPartials_fast (good : List (Nat × Bytes))
    (hflags : FlagsEarned comm ctA preVerified partials (good.map Prod.fst)) :
    goodPartials X comm ctA t cachedKey preVerified partials good
      = goodPartials X comm ctA t (fun _ => none) (fun _ => false) partials good := by
  classical
  induction partials generalizing good with
  | nil => rfl
  | cons vs rest ih =>
    by_cases hfull : good.length = t
    · rw [goodPartials_full _ hfull, goodPartials_full _ hfull]
    · have hsame : accepts X comm ctA cachedKey preVerified vs ∧ vs.index ∉ good.map Prod.fst
          ↔ accepts X comm ctA (fun _ => none) (fun _ => false) vs
            ∧ vs.index ∉ good.map Prod.fst := by
        rw [accepts_plain]
        exact and_congr_left (accepts_iff_verifies hback hcache hflags)
      rw [goodPartials_cons vs rest good hfull, goodPartials_cons vs rest good hfull]
      simp only [hsame]
      split_ifs with htake
      · apply ih
        -- the index of the taken partial is held from now on
        intro i vs' hpre hheld hfind
        rw [List.map_append, List.mem_append, not_or] at hheld
        have hne : vs.index ≠ i := fun h => hheld.2 (by simp [h])
        exact hflags i vs' hpre hheld.1 (by simp [hne, hfind])
      · apply ih
        intro i vs' hpre hheld hfind
        by_cases hi : vs.index = i
        · -- a flagged new index has its first partial taken
          subst hi
          have hver := hflags vs.index vs hpre hheld (by simp)
          exact absurd ⟨accepts_plain.mpr hver, hheld⟩ htake
        · exact hflags i vs' hpre hheld (by simp [hi, hfind])

end

/-! ## The plain walk -/

/-- What the walk holds at its end: partials under distinct indices, each held before or one that
verifies, and short of `t` of them one for every index that has any. -/
structure Walked (comm : List X.Point) (ctA : Bytes) (t : Nat) (partials : List (VerifiedShare X))
    (good held : List (Nat × Bytes)) : Prop where
  distinct : (held.map Prod.fst).Nodup
  size : held.length ≤ t
  keeps : ∀ g ∈ good, g ∈ held
  source : ∀ g ∈ held, g ∈ good
    ∨ ∃ vs ∈ partials, verifies X comm ctA vs = true ∧ g = (vs.index, vs.d)
  short : held.length < t → ∀ vs ∈ partials, verifies X comm ctA vs = true →
    vs.index ∈ held.map Prod.fst

theorem goodPartials_walked (hnodup : (good.map Prod.fst).Nodup) (hsize : good.length ≤ t) :
    Walked comm ctA t partials good
      (goodPartials X comm ctA t (fun _ => none) (fun _ => false) partials good) := by
  classical
  induction partials generalizing good with
  | nil => exact ⟨hnodup, hsize, fun _ hg => hg, fun _ hg => .inl hg, nofun⟩
  | cons vs rest ih =>
    by_cases hfull : good.length = t
    · rw [goodPartials_full _ hfull]
      exact ⟨hnodup, hsize, fun _ hg => hg, fun _ hg => .inl hg, fun h => absurd hfull h.ne⟩
    · rw [goodPartials_cons vs rest good hfull]
      split_ifs with htake
      · have hgood : ((good ++ [(vs.index, vs.d)]).map Prod.fst).Nodup := by
          rw [List.map_append, List.nodup_append]
          refine ⟨hnodup, List.nodup_singleton _, fun i hi j hj hij => ?_⟩
          obtain rfl : i = vs.index := hij.trans (List.mem_singleton.mp hj)
          exact htake.2 hi
        have hw := ih hgood (by rw [List.length_append, List.length_singleton]; omega)
        have hver := accepts_plain.mp htake.1
        refine ⟨hw.distinct, hw.size, fun g hg => hw.keeps g (List.mem_append_left _ hg), ?_, ?_⟩
        · intro g hg
          obtain hold | ⟨vs', hmem, hver', heq⟩ := hw.source g hg
          · obtain hold | hnew := List.mem_append.mp hold
            · exact .inl hold
            · exact .inr ⟨vs, List.mem_cons_self, hver, List.mem_singleton.mp hnew⟩
          · exact .inr ⟨vs', List.mem_cons_of_mem _ hmem, hver', heq⟩
        · intro hshort
          rw [List.forall_mem_cons]
          refine ⟨fun _ => ?_, hw.short hshort⟩
          exact List.mem_map_of_mem (hw.keeps (vs.index, vs.d) (by simp))
      · have hw := ih hnodup hsize
        refine ⟨hw.distinct, hw.size, hw.keeps, ?_, ?_⟩
        · intro g hg
          obtain hold | ⟨vs', hmem, hver', heq⟩ := hw.source g hg
          · exact .inl hold
          · exact .inr ⟨vs', List.mem_cons_of_mem _ hmem, hver', heq⟩
        · intro hshort
          rw [List.forall_mem_cons]
          refine ⟨fun hver => ?_, hw.short hshort⟩
          -- a partial that verifies is only dropped if its index is held
          have hheld : vs.index ∈ good.map Prod.fst := by
            by_contra hnew
            exact htake ⟨accepts_plain.mpr hver, hnew⟩
          obtain ⟨g, hg, hidx⟩ := List.mem_map.mp hheld
          exact hidx ▸ List.mem_map_of_mem (hw.keeps g hg)

theorem mem_verifiedIndices :
    i ∈ verifiedIndices X comm ctA partials
      ↔ ∃ vs ∈ partials, verifies X comm ctA vs = true ∧ vs.index = i := by
  simp [verifiedIndices, and_assoc]

theorem Walked.short_iff {held : List (Nat × Bytes)} (h : Walked comm ctA t partials [] held) :
    held.length < t ↔ (verifiedIndices X comm ctA partials).length < t := by
  have hle : held.length ≤ (verifiedIndices X comm ctA partials).length := by
    rw [← List.length_map Prod.fst]
    refine (List.subperm_of_subset h.distinct fun i hi => ?_).length_le
    obtain ⟨g, hg, rfl⟩ := List.mem_map.mp hi
    obtain hnil | ⟨vs, hmem, hver, rfl⟩ := h.source g hg
    · cases hnil
    · exact mem_verifiedIndices.mpr ⟨vs, hmem, hver, rfl⟩
  constructor
  · intro hshort
    refine lt_of_le_of_lt ?_ hshort
    rw [← List.length_map Prod.fst]
    refine (List.subperm_of_subset (List.nodup_dedup _) fun i hi => ?_).length_le
    obtain ⟨vs, hmem, hver, rfl⟩ := mem_verifiedIndices.mp hi
    exact h.short hshort vs hmem hver
  · exact lt_of_le_of_lt hle

theorem parse_of_verifyDecryptShare {ctA d : Bytes} {Y : X.Point} {proof : DLEQProof X}
    (h : verifyDecryptShare X ctA i d Y proof = true) :
    ∃ A D, X.parsePubKey ctA = some A ∧ X.parsePubKey d = some D := by
  unfold verifyDecryptShare at h
  cases hA : X.parsePubKey ctA with
  | none => simp [hA] at h
  | some A =>
    cases hD : X.parsePubKey d with
    | none => simp [hA, hD] at h
    | some D => exact ⟨A, D, rfl, rfl⟩

end Walk

/-! ## Recovery -/

section Recovery

variable {X : External} [Field X.Scalar] [AddCommGroup X.Point] [Module X.Scalar X.Point]
  {G : X.Point}

/-- Proof verification is sound on the listed partials: a partial that verifies under the share key
`x G` of its index is `x A`. -/
def DLEQSound (comm : List X.Point) (ctA : Bytes) (partials : List (VerifiedShare X)) : Prop :=
  ∀ vs ∈ partials, ∀ proof x A D, vs.proof = some proof →
    sharePubKey X vs.index comm = some (X.baseMul x) →
    verifyDecryptShare X ctA vs.index vs.d (X.baseMul x) proof = true →
    X.parsePubKey ctA = some A → X.parsePubKey vs.d = some D → D = X.mulPoint x A

theorem parse_of_verifies (hX : X.IsCurve G) {as : List X.Scalar} (hne : as ≠ []) {ctA : Bytes}
    {partials : List (VerifiedShare X)} (hsound : DLEQSound (as.map X.baseMul) ctA partials)
    {vs : VerifiedShare X} (hmem : vs ∈ partials)
    (hver : verifies X (as.map X.baseMul) ctA vs = true) :
    ∃ A, X.parsePubKey ctA = some A ∧ vs.index < 2 ^ 32
      ∧ X.parsePubKey vs.d = some (Shamir.horner (vs.index : X.Scalar) as • A) := by
  obtain ⟨proof, hproof, -, hhigh, Y, hY, hcheck⟩ := verifies_iff.mp hver
  obtain ⟨A, D, hA, hD⟩ := parse_of_verifyDecryptShare hcheck
  have hkey := sharePubKey_commitments hX hhigh hne
  rw [← hX.baseMul] at hkey
  obtain rfl := Option.some.inj (hY.symm.trans hkey)
  refine ⟨A, hA, hhigh, ?_⟩
  rw [hD, hsound vs hmem proof _ A D hproof hkey hcheck hA hD, hX.mulPoint]

/-- Verified recovery resists poisoning and its fast paths agree with the plain one. Over the
commitments to a polynomial with secret `msk`, any list of partials, a cache that holds only right
share keys and flags that the first partial of their index earns: the outcome is that of the plain
recovery. It is the error of too few verified partials if fewer than `t` distinct indices have a
partial that verifies, and otherwise, for `t` no smaller than the number of coefficients, the point
`msk A`. -/
theorem recoverVerifiedWithKeys_correct (hX : X.IsCurve G) {msk : X.Scalar}
    {coeffs : List X.Scalar} {comm : List X.Point} (hcomm : comm = (msk :: coeffs).map X.baseMul)
    {ctA : Bytes} {t : Nat} (ht : 1 ≤ t) {partials : List (VerifiedShare X)}
    (hsound : DLEQSound comm ctA partials) {cachedKey : Nat → Option Bytes}
    (hcache : CachedKeysRight comm cachedKey) {preVerified : Nat → Bool}
    (hflags : FlagsEarned comm ctA preVerified partials []) :
    recoverVerifiedWithKeys X comm ctA t partials cachedKey preVerified
        = recoverVerified X comm ctA t partials
      ∧ ((verifiedIndices X comm ctA partials).length < t →
        recoverVerifiedWithKeys X comm ctA t partials cachedKey preVerified
          = .error .insufficientVerified)
      ∧ (t ≤ (verifiedIndices X comm ctA partials).length → coeffs.length < t →
        ∃ A, X.parsePubKey ctA = some A
          ∧ recoverVerifiedWithKeys X comm ctA t partials cachedKey preVerified
            = .ok (X.mulPoint msk A)) := by
  subst hcomm
  have hwalk := goodPartials_fast (t := t) (fun _ _ => hX.eq_of_parse) hcache [] hflags
  have hequal : recoverVerifiedWithKeys X ((msk :: coeffs).map X.baseMul) ctA t partials cachedKey
      preVerified = recoverVerified X ((msk :: coeffs).map X.baseMul) ctA t partials := by
    simp only [recoverVerified, recoverVerifiedWithKeys, hwalk]
  refine ⟨hequal, ?_⟩
  rw [hequal, recoverVerified, recoverVerifiedWithKeys, if_neg (Nat.not_lt.mpr ht),
    if_neg (by simp)]
  -- the partials the walk ends with decide the outcome
  generalize hheld : goodPartials X _ ctA t _ _ partials [] = held
  have hwalked : Walked ((msk :: coeffs).map X.baseMul) ctA t partials [] held :=
    hheld ▸ goodPartials_walked List.nodup_nil (Nat.zero_le t)
  simp only
  constructor
  · intro hfew
    rw [if_pos (hwalked.short_iff.mpr hfew)]
  · intro hmany hdegree
    have hlen : held.length = t :=
      le_antisymm hwalked.size (Nat.not_lt.mp fun h => Nat.not_lt.mpr hmany (hwalked.short_iff.mp h))
    have hparse : ∀ g ∈ held, ∃ A, X.parsePubKey ctA = some A ∧ g.1 < 2 ^ 32
        ∧ X.parsePubKey g.2 = some (Shamir.horner (g.1 : X.Scalar) (msk :: coeffs) • A) := by
      intro g hg
      obtain hnil | ⟨vs, hmem, hver, rfl⟩ := hwalked.source g hg
      · cases hnil
      · exact parse_of_verifies hX (List.cons_ne_nil _ _) hsound hmem hver
    have hne : held ≠ [] := by
      rintro rfl
      rw [List.length_nil] at hlen
      omega
    obtain ⟨g₀, hg₀⟩ := List.exists_mem_of_ne_nil held hne
    obtain ⟨A, hA, -⟩ := hparse g₀ hg₀
    have hrecover : recover X held = some ((msk :: coeffs).headD 0 • A) := by
      apply recover_of_partials hX hne hwalked.distinct
      · exact fun g hg => (hparse g hg).choose_spec.2.1
      · rw [List.length_cons, hlen]
        exact hdegree
      · intro g hg
        obtain ⟨A', hA', -, hD⟩ := hparse g hg
        obtain rfl := Option.some.inj (hA.symm.trans hA')
        exact hD
    refine ⟨A, hA, ?_⟩
    rw [if_neg (Nat.not_lt.mpr hlen.ge), hrecover, List.headD_cons, hX.mulPoint]

end Recovery

/-! ## A poisoned list -/

namespace Sample

/-- The compressed encodings of the points the partials below are checked with. -/
def proofPoints : List (Nat × Bytes) :=
  [(2, beBytes 33 0x02C6047F9441ED7D6D3045406E95C07CD85C778E4B8CEF3CA7ABAC09B95C709EE5),
   (3, beBytes 33 0x02F9308A019258C31049344F85F89D5229B531C845836F99B08601F113BCE036F9),
   (5, beBytes 33 0x022F8BDE4D1A07209355B4A7250A5C5128E88B84BDDC619AB7CBA8D569B240EFE4),
   (6, beBytes 33 0x03FFF97BD5755EEEA420453A14355235D382F6472F8568A18B2F057A1460297556),
   (7, beBytes 33 0x025CBDF0646E5DB4EAA398F365F2EA7A0E3D419B7E0330E39CE92BDDEDCAC4F9BC),
   (9, beBytes 33 0x03ACD484E2F0C7F65309AD178A9F559ABDE09796974C57E714C35F110DFC27CCBE),
   (15, beBytes 33 0x02D7924D4F7D43EA965A465AE3095FF41131E5946F3C85F79E44ADBCF8E27E080E),
   (21, beBytes 33 0x02352BBF4A4CDD12564F93FA332CE333301D9AD40271F8107181340AEF25BE59D5),
   (27, beBytes 33 0x03DAED4F2BE3A8BF278E70132FB0BEB7522F570E144BF615C07E996D443DEE8729),
   (0x2E069092B962E8BF57D10DF5E705AC5A6D3764CB764E352DF305A151D3AEFC19,
    beBytes 33 0x024CE5F1DA2F3AD1855B79B8EDDAD7CC32673DD6C6742EE99DF6510FD559B4EA6C),
   (0x93FB02B581B6B72CD05E8FAA9E9D8114268EA46ECEC7026C6F30E1C3201018D3,
    beBytes 33 0x02B9914EB81FBF278E9188345B42D5D5F64B24D8C3BF6304B07F8D74EE773B0651)]

/-- The encoding of a listed point. -/
def proofPoint (k : Nat) : Bytes := ((proofPoints.find? (fun p => p.1 = k)).map Prod.snd).getD []

/-- The challenge hashed for a partial `D` at `index` under the share key `Y`, over `A = 3 G` and
the commitments `2 G` and `T2`. -/
def challengeInput (index D Y T2 : Nat) : Bytes :=
  bytesOf "limonata/encmempool/dkg/dleq/v1" ++ be64 index ++ proofPoint 3 ++ proofPoint D
    ++ proofPoint Y ++ proofPoint 2 ++ proofPoint T2

def proofTables : Tables where
  points := proofPoints
  digests :=
    [(challengeInput 1 21 7 6,
      beBytes 32 0x32566D6DC9907C1FE3F82CFE512B9CB986A660485B9923919DCEAAA51B50DF8E),
     (challengeInput 2 27 9 6,
      beBytes 32 0x4C54EAE47579E499115D36A38D37CAC15C8CEF983D0D6842A3E3551E21643D0C),
     (challengeInput 1 15 7 0x2E069092B962E8BF57D10DF5E705AC5A6D3764CB764E352DF305A151D3AEFC19,
      beBytes 32 0x46DD5E67505C34DC492A8BDF0844B05DA2438EAAE0C99FBEC020066365680AD6),
     (challengeInput 2 15 9 0x93FB02B581B6B72CD05E8FAA9E9D8114268EA46ECEC7026C6F30E1C3201018D3,
      beBytes 32 0x2280401733A331FB24989C83CB17FFD357FBF0B35184B0E4DB42DD874B5C7CE8)]

theorem proofTables_wellFormed : proofTables.WellFormed where
  encodings := by decide +kernel
  points := by decide +kernel
  boxes := by decide +kernel
  tags := by decide +kernel

abbrev proofScheme : External := .ofGroup proofTables

theorem dleqSound_of_check {t : Tables} {comm : List (External.ofGroup t).Point} {ctA : Bytes}
    {partials : List (VerifiedShare (.ofGroup t))}
    (h : ∀ vs ∈ partials, ∀ proof ∈ vs.proof, ∀ Y ∈ sharePubKey (.ofGroup t) vs.index comm,
      ∀ A ∈ (External.ofGroup t).parsePubKey ctA, ∀ D ∈ (External.ofGroup t).parsePubKey vs.d,
        verifyDecryptShare (.ofGroup t) ctA vs.index vs.d Y proof = true →
          D = (External.ofGroup t).mulPoint Y A) : DLEQSound comm ctA partials :=
  fun vs hvs proof x A D hproof hkey hcheck hA hD => h vs hvs proof hproof x hkey A hA D hD hcheck

/-- Proofs of the partials `21 G` at index 1 and `27 G` at index 2 for the point `3 G`. -/
def proofOne : DLEQProof proofScheme where
  c := (0x32566D6DC9907C1FE3F82CFE512B9CB986A660485B9923919DCEAAA51B50DF8E : ZMod groupOrder)
  z := (0x605CFE0082F364DF3BC93AF438314913F3DDC513D1E758BF90D44BF6EEFFDBA3 : ZMod groupOrder)

@[inherit_doc proofOne]
def proofTwo : DLEQProof proofScheme where
  c := (0x4C54EAE47579E499115D36A38D37CAC15C8CEF983D0D6842A3E3551E21643D0C : ZMod groupOrder)
  z := (0xAEFC4208214909619C46EBBFF6F620CECB96B28CC6E769E0435940F58C19A2EC : ZMod groupOrder)

def partialOne : VerifiedShare proofScheme := ⟨1, proofPoint 21, some proofOne⟩

/-- A partial that is not the one proved. -/
def spoiledOne : VerifiedShare proofScheme := { partialOne with d := proofPoint 15 }

/-- A partial that verifies, an index that only looks new, a missing proof, a partial that does not
verify, and one for its index that does. -/
def poisoned : List (VerifiedShare proofScheme) :=
  [partialOne, { partialOne with index := 2 ^ 32 + 1 }, ⟨2, proofPoint 27, none⟩,
   ⟨2, proofPoint 15, some proofTwo⟩, ⟨2, proofPoint 27, some proofTwo⟩]

/-- The commitments to the polynomial `5 + 2 x`. -/
def proofCommitments : List proofScheme.Point :=
  [((5 : ℕ) : ZMod groupOrder), ((2 : ℕ) : ZMod groupOrder)].map proofScheme.baseMul

end Sample

open Sample

/-- The poisoned list recovers `5 * 3 G`, with the key of index 2 cached and index 1 trusted. -/
theorem recoverVerifiedWithKeys_poisoned :
    recoverVerifiedWithKeys proofScheme proofCommitments (proofPoint 3) 2
        poisoned (fun i => if i = 2 then some (proofPoint 9) else none)
        (fun i => i = 1)
      = .ok (15 : ZMod groupOrder) := by
  have hX := External.ofGroup_isCurve proofTables_wellFormed
  have hcomm : proofCommitments
      = ((5 : ZMod groupOrder) :: [(2 : ZMod groupOrder)]).map proofScheme.baseMul := rfl
  have hsound : DLEQSound proofCommitments (proofPoint 3) poisoned :=
    dleqSound_of_check (by decide +kernel)
  have hcache : CachedKeysRight proofCommitments
      (fun i => if i = 2 then some (proofPoint 9) else none) := by
    intro i b hb
    simp only at hb
    split_ifs at hb with hi
    cases hb
    subst hi
    exact ⟨(9 : ZMod groupOrder), by decide +kernel, by decide +kernel⟩
  have hflags : FlagsEarned proofCommitments (proofPoint 3) (fun i => i = 1)
      poisoned [] := by
    intro i vs hi _ hfind
    obtain rfl : i = 1 := of_decide_eq_true hi
    obtain rfl : partialOne = vs := Option.some.inj hfind
    decide +kernel
  obtain ⟨-, -, hmany⟩ :=
    recoverVerifiedWithKeys_correct hX hcomm (t := 2) (by decide) hsound hcache hflags
  obtain ⟨A, hA, hrecover⟩ := hmany (by decide +kernel) (by decide)
  have hpoint : proofScheme.parsePubKey (proofPoint 3)
      = some (3 : ZMod groupOrder) := rfl
  obtain rfl := Option.some.inj (hA.symm.trans hpoint)
  exact hrecover

/-- A partial that does not verify leaves its index free: the second partial of index 1 is used
although the first one listed fails. And a threshold below the number of commitments combines too
few partials: over `5 + 2 x` the one at index 1 yields `7 * 3 G` and not `5 * 3 G`. -/
theorem recoverVerified_second_entry :
    verifies proofScheme [(7 : ZMod groupOrder)] (proofPoint 3) spoiledOne
        = false
      ∧ recoverVerified proofScheme [(7 : ZMod groupOrder)] (proofPoint 3) 1
          [spoiledOne, partialOne]
        = .ok (21 : ZMod groupOrder)
      ∧ verifies proofScheme proofCommitments (proofPoint 3) partialOne
        = true
      ∧ recoverVerified proofScheme proofCommitments (proofPoint 3) 1
          [partialOne]
        = .ok (21 : ZMod groupOrder) :=
  ⟨by decide +kernel, by decide +kernel, by decide +kernel, by decide +kernel⟩

/-- **The cache is transparent.** In every reachable state, whatever was precomputed, pruned or
imported, recovery gives what it gives with an empty cache. -/
theorem shareKeyCache_transparent {X : External} (hX : X.ParsesBack) {gs : GenesisState} {h : Nat}
    {c : Chain} (hreach : Chain.Reachable X EpochRoom gs h c) (p : Params) (e : EncTx)
    (shares : List EncShare) : c.state.recoverSharedSecret X p e shares
      = { c.state with shareKeys := .empty }.recoverSharedSecret X p e shares := by
  unfold State.recoverSharedSecret
  cases hak : c.state.activeKeys.get? e.epoch with
  | none => rfl
  | some ak =>
    cases hcomm : parseCommitmentPoints X ak.publicCommitments with
    | none => simp only [hcomm]
    | some comm =>
      have hright : CachedKeysRight comm (fun i => c.state.shareKeys.lookup (key2 e.epoch i)) := by
        intro i b hb
        obtain ⟨ak', hak', comm', Y, hcomm', hY, rfl⟩ :=
          (hreach.cacheSound fun _ _ _ hroom => hroom).sound e.epoch i b hb
        cases hak.symm.trans hak'
        cases hcomm.symm.trans hcomm'
        exact ⟨Y, hY, rfl⟩
      simp only [hcomm, recoverVerifiedWithKeys, goodPartials_uncached hX hright]
      rfl

theorem shareKeyCache_transparent_filled : ∃ c,
    Chain.Reachable pairPrimitives EpochRoom freshPair 9 c
    ∧ (c.state.shareKeys.lookup (key2 1 2)).isSome = true
    ∧ c.state.recoverSharedSecret pairPrimitives params { encTx 41 0 with epoch := 1 } []
      = { c.state with shareKeys := .empty }.recoverSharedSecret pairPrimitives params
        { encTx 41 0 with epoch := 1 } [] := by
  obtain ⟨c, hreach, hkey⟩ : ∃ c, Chain.Reachable pairPrimitives EpochRoom freshPair 9 c
      ∧ (c.state.shareKeys.lookup (key2 1 2)).isSome = true :=
    Chain.exists_reachable
      [(pairBlock 10 (by decide), .endBlockDKG),
       (pairBlock 11 (by decide), .dkgDeal (poisonedDeal 1)),
       (pairBlock 40 (by decide), .endBlockDKG)]
      (by decide +kernel)
  exact ⟨c, hreach, hkey, shareKeyCache_transparent
    (ofTables_parsesBack (by decide +kernel) (by decide +kernel)) hreach _ _ _⟩

end EncMempool
