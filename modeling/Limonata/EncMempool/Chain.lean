import Limonata.Lib.Reach
import Limonata.EncMempool.Genesis

/-!
# x/encmempool — the chain: actions and runs

One action is a message, the ingestion of a block's vote extensions, or one of the two block
handlers. A run starts from an imported genesis and applies actions at non-decreasing heights, in
any order: that over-approximates the order of the phases within a block. `allow` restricts which
actions a run may take, so a statement about runs that avoid some input is one about `allow`.
-/

namespace EncMempool

inductive Action where
  | updateParams (msg : MsgUpdateParams)
  | commitTx (msg : MsgCommitTx)
  | revealTx (msg : MsgRevealTx)
  | submitEncrypted (escrowed : Bool) (msg : MsgSubmitEncrypted)
  | submitDecryptionShare (msg : MsgSubmitDecryptionShare)
  | dkgDeal (msg : MsgDkgDeal)
  | dkgComplaint (msg : MsgDkgComplaint)
  | consumeVoteExtensions (entries : List VEEntry)
  | ingestDecryptShareFromVE (operator : Bytes) (sh : VoteExtShare)
  | beginBlock (exec : Executor)
  | endBlockDKG

/-- A rejected message leaves the state as it was. -/
def State.orElse (s : State) : Except String State → State
  | .ok s' => s'
  | .error _ => s

/-- The state after an action. -/
def State.step (X : External) (ctx : Ctx) (s : State) : Action → State
  | .updateParams msg => s.orElse (s.updateParams X ctx msg)
  | .commitTx msg => s.orElse (s.commitTx ctx msg)
  | .revealTx msg => s.orElse (s.revealTx X ctx msg)
  | .submitEncrypted escrowed msg => s.orElse (s.submitEncrypted X ctx escrowed msg)
  | .submitDecryptionShare msg => s.orElse (s.submitDecryptionShare ctx msg)
  | .dkgDeal msg => s.orElse (s.dkgDeal X ctx msg)
  | .dkgComplaint msg => s.orElse (s.dkgComplaint X ctx msg)
  | .consumeVoteExtensions entries => s.consumeVoteExtensions X ctx entries
  | .ingestDecryptShareFromVE operator sh => (s.ingestDecryptShareFromVE X ctx operator sh).1
  | .beginBlock exec => s.beginBlock X ctx exec
  | .endBlockDKG => s.endBlockDKG X ctx

/-- The module's state at a block height. -/
structure Chain where
  height : Nat
  state : State

/-- Which actions a run may take, by the state and the block they are applied in. -/
abbrev Allow := State → Ctx → Action → Prop

namespace Chain

/-- One allowed action, not before the height reached. -/
def Step (X : External) (allow : Allow) (c c' : Chain) : Prop :=
  ∃ ctx a, c.height ≤ ctx.height ∧ allow c.state ctx a ∧ c' = ⟨ctx.height, c.state.step X ctx a⟩

/-- The chain states of the runs from the genesis imported at height `h`. -/
def Reachable (X : External) (allow : Allow) (gs : GenesisState) (h : Nat) (c : Chain) : Prop :=
  ∃ s, State.initGenesis X gs = .ok s ∧ Relation.ReflTransGen (Step X allow) ⟨h, s⟩ c

/-- **Invariant rule of the chain.** What the imported state has and every allowed action keeps
holds in every reachable state. -/
theorem Reachable.invariant {X : External} {allow : Allow} {gs : GenesisState} {h : Nat}
    {c : Chain} {I : Chain → Prop} (hreach : Reachable X allow gs h c)
    (hinit : ∀ s, State.initGenesis X gs = .ok s → I ⟨h, s⟩)
    (hstep : ∀ c ctx a, c.height ≤ ctx.height → allow c.state ctx a → I c →
      I ⟨ctx.height, c.state.step X ctx a⟩) : I c := by
  obtain ⟨s, hs, hrun⟩ := hreach
  refine Reach.run_keeps ?_ hrun (hinit s hs)
  rintro c c' ⟨ctx, a, hle, hallow, rfl⟩ hc
  exact hstep c ctx a hle hallow hc

/-- Run a schedule of actions, as long as it is allowed and its heights do not decrease. -/
def play (X : External) (allow : Allow) [∀ s ctx a, Decidable (allow s ctx a)] (c : Chain) :
    List (Ctx × Action) → Option Chain
  | [] => some c
  | (ctx, a) :: rest =>
    if c.height ≤ ctx.height ∧ allow c.state ctx a then
      play X allow ⟨ctx.height, c.state.step X ctx a⟩ rest
    else none

/-- Import a genesis at height `h` and run a schedule. -/
def start (X : External) (allow : Allow) [∀ s ctx a, Decidable (allow s ctx a)]
    (gs : GenesisState) (h : Nat) (schedule : List (Ctx × Action)) : Option Chain :=
  match State.initGenesis X gs with
  | .error _ => none
  | .ok s => play X allow ⟨h, s⟩ schedule

variable {X : External} {allow : Allow} [∀ s ctx a, Decidable (allow s ctx a)]

theorem play_run {schedule : List (Ctx × Action)} {c c' : Chain}
    (h : play X allow c schedule = some c') : Relation.ReflTransGen (Step X allow) c c' := by
  induction schedule generalizing c with
  | nil =>
    cases h
    exact .refl
  | cons act rest ih =>
    obtain ⟨ctx, a⟩ := act
    simp only [play] at h
    split_ifs at h with hok
    exact .head ⟨ctx, a, hok.1, hok.2, rfl⟩ (ih h)

theorem exists_reachable {gs : GenesisState} {h : Nat} (schedule : List (Ctx × Action))
    {P : Chain → Prop} [DecidablePred P]
    (hplay : (start X allow gs h schedule).any (fun c => P c) = true) :
    ∃ c, Reachable X allow gs h c ∧ P c := by
  obtain ⟨c, hc, hP⟩ := Option.any_eq_true _ _ |>.mp hplay
  refine ⟨c, ?_, of_decide_eq_true hP⟩
  unfold start at hc
  cases hinit : State.initGenesis X gs with
  | error err => simp [hinit] at hc
  | ok s =>
    simp only [hinit] at hc
    exact ⟨s, hinit, play_run hc⟩

end Chain

/-! ## A sample pool -/

namespace Sample

/-- The compressed encodings of the small multiples of the base point. -/
def points : List (Nat × Bytes) :=
  [(1, beBytes 33 0x0279BE667EF9DCBBAC55A06295CE870B07029BFCDB2DCE28D959F2815B16F81798),
   (2, beBytes 33 0x02C6047F9441ED7D6D3045406E95C07CD85C778E4B8CEF3CA7ABAC09B95C709EE5),
   (3, beBytes 33 0x02F9308A019258C31049344F85F89D5229B531C845836F99B08601F113BCE036F9),
   (5, beBytes 33 0x022F8BDE4D1A07209355B4A7250A5C5128E88B84BDDC619AB7CBA8D569B240EFE4),
   (7, beBytes 33 0x025CBDF0646E5DB4EAA398F365F2EA7A0E3D419B7E0330E39CE92BDDEDCAC4F9BC),
   (10, beBytes 33 0x03A0434D9E47F3C86235477C7B1AE6AE5D3442D49B1943C2B752A68E2A47E247C7),
   (15, beBytes 33 0x02D7924D4F7D43EA965A465AE3095FF41131E5946F3C85F79E44ADBCF8E27E080E),
   (35, beBytes 33 0x03605BDB019981718B986D0F07E834CB0D9DEB8360FFB7F61DF982345EF27A7479)]

/-- The encoding of a listed point. -/
def point (k : Nat) : Bytes := ((points.find? (fun p => p.1 = k)).map Prod.snd).getD []

def account : Bytes := bytesOf "cosmos1qqqsyqcyq5rqwzqfpg9scrgwpugpzysnrk363e"

theorem account_ne : account ≠ [] := by decide +kernel

/-- A submission for the point `5 G`, with the proof of knowledge of its logarithm. -/
def submission : MsgSubmitEncrypted :=
  { submitter := ⟨account, account_ne⟩, a := point 5, nonce := beBytes 12 0
    body := List.replicate 17 1
    pok := beBytes 32 0xEF087FD2B2A2A0DC721A2D017E3A5758A29561FF3D2E4F296E121752CBC182F4 ++ beBytes 32 0xAB2A7F1D7D2D244E3A82E1077723B4C0422F766174C50AE02710FA6AB9EE89C7 }

def chainID : Bytes := bytesOf "limonata-1"

/-- The hash input of the submission's proof and its digest. -/
def submissionDigest : Bytes × Bytes :=
  (bytesOf "limonata/encmempool/enc-pok/v1" ++ hashField chainID ++ hashField submission.a
    ++ hashField account ++ hashField submission.nonce ++ hashField submission.body ++ point 7,
   beBytes 32 0xEF087FD2B2A2A0DC721A2D017E3A5758A29561FF3D2E4F296E121752CBC182F4)

def primitives : External :=
  .ofTables { points := points, digests := [submissionDigest], accounts := [account] }

/-- A block without validators. -/
def block (height : Nat) (hheight : height < 2 ^ 63) : Ctx :=
  { height := height, height_lt := hheight, bonded := [], bonded_nodup := List.nodup_nil
    tokens_nonneg := nofun, voteExtEnableHeight := none, maxBlockBytes := none
    maxBlockGas := none, chainID := chainID }

/-- No executor is wired. -/
def noExecutor : Executor := { wired := false, run := fun _ _ _ => .panicked }

/-- The encrypted path with a single trusted keyper. -/
def params : Params :=
  { defaultParams with
    encEnabled := true, encExecEnabled := true, thresholdPub := point 1, threshold := 1
    keypers := [account] }

/-- A stored ciphertext of the pool. -/
def encTx (decryptHeight seq : Nat) : EncTx :=
  { submitter := account, submitHeight := decryptHeight - 1, decryptHeight := decryptHeight
    seq := seq, a := point 5, nonce := beBytes 12 0, body := List.replicate 17 1, epoch := 0
    bond := 0, bondDenom := [], bondBurn := 0 }

/-- The keyper's share of a ciphertext of height 11. -/
def share (seq : Nat) : MsgSubmitDecryptionShare :=
  { keyper := ⟨account, account_ne⟩, decryptHeight := 11, seq := seq, index := 1
    d := point 5, proof := [] }

/-- A genesis of the pool. -/
def genesis (encSeq : Nat) (encTxs : List EncTx) : GenesisState :=
  { params := params, commits := [], pending := [], encSeq := encSeq, encTxs := encTxs
    encShares := [], dkgRounds := [], dealings := [], activeKeys := [], currentEpoch := 0
    activeEpoch := 0, encKeys := [] }

/-! A committee of one declared member. -/

def operator : Bytes := bytesOf "cosmosvaloper1zs23v9ccrydpk8qarc0jqgfzyvjz2f38657lgn"

def member : DkgMember :=
  { operatorAddr := operator, accountAddr := account, encPubKey := point 2 }

/-- The digest of the member set. -/
def memberDigest : Bytes :=
  beBytes 32 0x4BB377F99C5DA8A84BA4DB24B9F5322A1ACD404DB19731C068AD407F5480CB15

/-- The hash input of the share proof of the ciphertext `5 G` under the key `3 G`, and its digest. -/
def shareDigest : Bytes × Bytes :=
  (bytesOf "limonata/encmempool/dkg/dleq/v1" ++ be64 1 ++ point 5 ++ point 15 ++ point 3 ++ point 7
    ++ point 35,
   beBytes 32 0x7668F3F4271323B8DED357226466CEFFA50EF62186BC1E924BB7DA73C134531A)

def dkgPrimitives : External :=
  .ofTables
    { points := points, accounts := [account]
      digests := [(operator ++ [0] ++ point 2 ++ [0], memberDigest), shareDigest] }

/-- The committee's share of the ciphertext, with its proof. -/
def voteShare : VoteExtShare :=
  { epoch := 1, decryptHeight := 100, seq := 0, index := 1, d := point 15
    proof := beBytes 32 0x7668F3F4271323B8DED357226466CEFFA50EF62186BC1E924BB7DA73C134531A
      ++ beBytes 32 0x633ADBDC75396B2A9C7A05672D346D00347E057DE4EBBB7B235530CE7366B814 }

def round (epoch : Nat) (status : DkgStatus) : DkgRound :=
  { epoch := epoch, openHeight := 1, dealDeadline := 3, complaintDeadline := 5
    members := [{ index := 1, operatorAddr := operator, accountAddr := account
                  encPubKey := point 2, weight := 0, evalPoints := [], weighted := false }]
    threshold := 1, membersHash := memberDigest, status := status, attempt := 1 }

def key (epoch : Nat) : ActiveThresholdKey :=
  { epoch := epoch, pub := point 3, publicCommitments := [point 3], threshold := 1, qual := [1] }

def dealing (epoch : Nat) : Dealing :=
  { epoch := epoch, dealerIndex := 1, dealer := account, commitments := [point 3]
    encShares := [{ memberIndex := 1, a := point 5, nonce := beBytes 12 0
                    body := List.replicate 48 1 }] }

/-- A genesis of a chain with that committee and one ciphertext of `txEpoch`. -/
def dkgGenesis (current active txEpoch : Nat) (rounds : List DkgRound)
    (keys : List ActiveThresholdKey) (dealings : List Dealing) : GenesisState :=
  { params := { defaultParams with
      encEnabled := true, encExecEnabled := true, threshold := 1, dkgEnabled := true
      dkgMembers := [member] }
    commits := [], pending := [], encSeq := 1, encTxs := [{ encTx 100 0 with epoch := txEpoch }]
    encShares := [], dkgRounds := rounds, dealings := dealings, activeKeys := keys
    currentEpoch := current, activeEpoch := active, encKeys := [] }

/-! A committee of two, in operator order. The first one deals a share to the other that does not
open. -/

def dealerOperator : Bytes := bytesOf "cosmosvaloper19q5j52ev95hz7vp3xgengdfkxuurjw3m0xt4px"

def dealerAccount : Bytes := bytesOf "cosmos19q5j52ev95hz7vp3xgengdfkxuurjw3m2jlqd4"

def dealer : DkgMember :=
  { operatorAddr := dealerOperator, accountAddr := dealerAccount, encPubKey := point 1 }

/-- The digests of the pair and of the dealer alone. -/
def pairDigest : Bytes :=
  beBytes 32 0xAEA78DADFF9A1FA8A33A648208D91D566FEDD7826C5F4FF12CDDCF63B5A0959C

def dealerDigest : Bytes :=
  beBytes 32 0xAA1DDBE4198832126C7A36C4020CD78BC6B89AC55BE307DDB44D5AF34743B867

/-- The key of the shared point `15 G`, and a body sealed under it. -/
def bodyKey : Bytes :=
  beBytes 32 0x736510E0A2977668353B84EBB7FFA6B902E674A355038534E605D3B73EB0CF16

def sealedBody : Bytes := beBytes 24 0xB6968E2A25187A33398CEF5E9C5D9CF1E3C9E248ABCF73B5

/-- The second member's report on the share of its point: its secret times `5 G`, with the proof. -/
def poisonReport (epoch : Nat) : VoteExtComplaint :=
  { epoch := epoch, against := 1, evalPoint := 2, sharedPoint := point 10
    dleqProof := beBytes 32 0xAF63F860A3783AF9C9F392422BFB7C319AA23D208B13C8099899F4F70FFFAC2A
      ++ beBytes 32 0x5EC7F0C146F075F393E7248457F6F8647A959D5A66DEEFD771618B614FC9171A }

def poisonDigest : Bytes × Bytes :=
  (bytesOf "limonata/encmempool/dkg/dleq/v1" ++ be64 2 ++ point 5 ++ point 10 ++ point 2 ++ point 7
    ++ point 35,
   beBytes 32 0xAF63F860A3783AF9C9F392422BFB7C319AA23D208B13C8099899F4F70FFFAC2A)

def pairPrimitives : External :=
  .ofTables
    { points := points, accounts := [account, dealerAccount]
      opened := [((bodyKey, beBytes 12 0, sealedBody), bytesOf "limonata")]
      digests :=
        [(operator ++ [0] ++ point 2 ++ [0], memberDigest),
         (dealerOperator ++ [0] ++ point 1 ++ [0], dealerDigest),
         (dealerOperator ++ [0] ++ point 1 ++ [0] ++ operator ++ [0] ++ point 2 ++ [0], pairDigest),
         (point 10, beBytes 32 0x7C5390F1A98FF45BA7568617D38FF43BF66C3FC5BB3891D751F7BEFB887E1537),
         (point 15, bodyKey), poisonDigest, shareDigest] }

/-- The dealer's sealed shares, to itself and to the other member. -/
def poisonedShares : List DkgStoredEncShare :=
  [1, 2].map fun i =>
    { memberIndex := i, a := point 5, nonce := beBytes 12 0, body := List.replicate 48 1 }

def poisonedDeal (epoch : Nat) : MsgDkgDeal :=
  { dealer := ⟨dealerAccount, by decide +kernel⟩, epoch := epoch, commitments := [point 3]
    encShares := poisonedShares }

/-- The vote of the second member with a poison report. -/
def poisonVote (epoch : Nat) : VEEntry :=
  { operator := operator
    ve := { encPubKey := [], encPubKeyPoP := [], dealing := none, shares := [], complaints := []
            poisonReports := [poisonReport epoch] } }

/-- A block with both validators bonded and vote extensions on. -/
def pairBlock (height : Nat) (hheight : height < 2 ^ 63) : Ctx :=
  { block height hheight with
    bonded := [(operator, 1000), (dealerOperator, 1000)], bonded_nodup := by decide +kernel
    tokens_nonneg := by decide, voteExtEnableHeight := some 1 }

/-- A block in which only the dealer is bonded. -/
def dealerBlock (height : Nat) (hheight : height < 2 ^ 63) : Ctx :=
  { block height hheight with
    bonded := [(dealerOperator, 1000)], bonded_nodup := by decide
    tokens_nonneg := by decide, voteExtEnableHeight := some 1 }

/-- A genesis in which the second member serves alone and the dealer has just been declared. -/
def pairGenesis : GenesisState :=
  { dkgGenesis 1 1 1 [round 1 .active] [key 1] [dealing 1] with
    params := { defaultParams with
      dkgEnabled := true, dkgMembers := [member, dealer], dkgThreshold := 1
      dkgMinRekeyGap := 1000 }
    encSeq := 0, encTxs := [], encKeys := [⟨operator, point 2⟩, ⟨dealerOperator, point 1⟩] }

/-- Governance switches that chain to the transparent path. -/
def goTransparent : MsgUpdateParams :=
  { authority := bytesOf "cosmos10d07y265gmmuvt4z0w9aw880jnsr700j6zn9kn"
    params := some { pairGenesis.params with dkgTransparent := true } }

/-- The round of the pair. -/
def pairRound (epoch : Nat) (status : DkgStatus) : DkgRound :=
  { round epoch status with
    members := [{ index := 1, operatorAddr := dealerOperator, accountAddr := dealerAccount
                  encPubKey := point 1, weight := 0, evalPoints := [], weighted := false },
                { index := 2, operatorAddr := operator, accountAddr := account
                  encPubKey := point 2, weight := 0, evalPoints := [], weighted := false }]
    membersHash := pairDigest }

/-- A genesis in which the pair serves epoch 1 on the transparent path, with a ciphertext that
matures at height 100 and these shares of it. -/
def poisonedGenesis (shares : List EncShare) : GenesisState :=
  { dkgGenesis 1 1 1 [pairRound 1 .active] [key 1]
      [{ dealing 1 with dealer := dealerAccount, encShares := poisonedShares }] with
    params := { defaultParams with
      encEnabled := true, encExecEnabled := true, dkgEnabled := true, dkgTransparent := true }
    encTxs := [{ encTx 100 0 with epoch := 1, body := sealedBody }], encShares := shares
    encKeys := [⟨operator, point 2⟩, ⟨dealerOperator, point 1⟩] }

/-- The dealer's share of that ciphertext, as an import takes it. -/
def dealerShare : EncShare := { voteShare.verifiedBy dealerOperator with verified := false }

/-- The block of the report. -/
def reportBlock : Ctx := pairBlock 100 (by decide)

/-- The state after the pre-block with the report. -/
def reported (c : Chain) : State :=
  c.state.consumeVoteExtensions pairPrimitives reportBlock [poisonVote 1]

end Sample

end EncMempool
