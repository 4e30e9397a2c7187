import Limonata.EncMempool.ExtendVote
import Limonata.Lib.Json

/-!
# x/encmempool — checking a vote extension (`evmd/dkg_voteext.go`, `types/voteext.go`)

An extension travels as JSON behind a version byte. A peer bounds its bytes and its objects before it
decodes it, and then the numbers of its parts and the bytes of its fields. The bounds come from the
parameters, the extension from the rounds in the store: a peer accepts what an honest node builds if
every stored round fits the parameters.
-/

namespace EncMempool

open Machine

/-! ## The wire format -/

def voteExtVersion : Byte := 1
def voteExtMaxBytes : Nat := 2 ^ 20

/-- A `uint64`. -/
def jsonUint64 (n : Nat) : Bytes := Json.num (wrap64 n)

/-- A byte string that is left out when it is empty. -/
def omitEmpty (b : Bytes) : Option Bytes := if b = [] then none else some (Json.bytes b)

/-- A list that is left out when it is empty. -/
def omitEmptyList (items : List Bytes) : Option Bytes :=
  if items = [] then none else some (Json.arr items)

/-- An object of the fields that are not left out. -/
def jsonObject (fields : List (String × Option Bytes)) : Bytes :=
  Json.obj (fields.filterMap fun f => f.2.map fun v => (bytesOf f.1, v))

def DkgStoredEncShare.toJson (sh : DkgStoredEncShare) : Bytes :=
  jsonObject [("member_index", some (jsonUint64 sh.memberIndex)), ("a", some (Json.bytes sh.a)),
    ("nonce", some (Json.bytes sh.nonce)), ("body", some (Json.bytes sh.body))]

def VoteExtDealing.toJson (d : VoteExtDealing) : Bytes :=
  jsonObject [("epoch", some (jsonUint64 d.epoch)),
    ("commitments", some (Json.arr (d.commitments.map Json.bytes))),
    ("enc_shares", some (Json.arr (d.encShares.map DkgStoredEncShare.toJson)))]

def VoteExtShare.toJson (sh : VoteExtShare) : Bytes :=
  jsonObject [("epoch", some (jsonUint64 sh.epoch)),
    ("decrypt_height", some (jsonUint64 sh.decryptHeight)), ("seq", some (jsonUint64 sh.seq)),
    ("index", some (jsonUint64 sh.index)), ("d", some (Json.bytes sh.d)),
    ("proof", some (Json.bytes sh.proof))]

def VoteExtComplaint.toJson (c : VoteExtComplaint) : Bytes :=
  jsonObject [("epoch", some (jsonUint64 c.epoch)), ("against", some (jsonUint64 c.against)),
    ("eval_point", some (jsonUint64 c.evalPoint)), ("shared_point", omitEmpty c.sharedPoint),
    ("dleq_proof", omitEmpty c.dleqProof)]

def VoteExtension.toJson (ve : VoteExtension) : Bytes :=
  jsonObject [("enc_pubkey", omitEmpty ve.encPubKey), ("enc_pubkey_pop", omitEmpty ve.encPubKeyPoP),
    ("dealing", ve.dealing.map VoteExtDealing.toJson),
    ("shares", omitEmptyList (ve.shares.map VoteExtShare.toJson)),
    ("complaints", omitEmptyList (ve.complaints.map VoteExtComplaint.toJson)),
    ("poison_reports", omitEmptyList (ve.poisonReports.map VoteExtComplaint.toJson))]

def marshalVoteExtension (ve : VoteExtension) : Bytes := voteExtVersion :: ve.toJson

/-- Decode an extension, over the decoder of its JSON. -/
def unmarshalVoteExtension (decode : Bytes → Option VoteExtension) : Bytes → Option VoteExtension
  | [] => none
  | v :: json => if v = voteExtVersion then decode json else none

/-- The bytes `ExtendVote` attaches. -/
def Node.voteExtension {X : External} (node : Node X) (ctx : Ctx) (s : State) : Bytes :=
  ((node.extendVote ctx s).map marshalVoteExtension).getD []

/-! ## The handler -/

def veMaxPointBytes : Nat := 33
def veMaxDleqProofBytes : Nat := 64
def veMaxEncShareBodyBytes : Nat := 128
def veMaxPoPBytes : Nat := 128

/-- Whether some ciphertext has more than `limit` shares; `seen` are those counted before. -/
def overShared (limit : Nat) : List (Nat × Nat) → List VoteExtShare → Bool
  | _, [] => false
  | seen, sh :: rest =>
    let k := (sh.decryptHeight, sh.seq)
    if limit < seen.count k + 1 then true else overShared limit (k :: seen) rest

/-- The counts of a decoded extension. -/
def countsBounded (p : Params) (ve : VoteExtension) : Bool :=
  ve.shares.length ≤ p.voteExtShareCap
    ∧ (p.effectiveShareBudget < ve.shares.length →
      overShared p.effectiveShareBudget [] ve.shares = false)
    ∧ ve.complaints.length ≤ p.effectiveMaxMembers
    ∧ ve.poisonReports.length ≤ p.effectiveMaxMembers

/-- A point or proof that a complaint or a share carries. -/
def proofBounded (point proof : Bytes) : Bool :=
  point.length ≤ veMaxPointBytes ∧ proof.length ≤ veMaxDleqProofBytes

/-- The counts and bytes of a dealing. -/
def dealingBounded (p : Params) (d : VoteExtDealing) : Bool :=
  d.commitments.length ≤ p.effectiveShareBudget ∧ d.encShares.length ≤ p.effectiveShareBudget
    ∧ (∀ c ∈ d.commitments, c.length ≤ veMaxPointBytes)
    ∧ ∀ es ∈ d.encShares, es.a.length ≤ veMaxPointBytes ∧ es.body.length ≤ veMaxEncShareBodyBytes
      ∧ es.nonce.length ≤ nonceSize

/-- The bytes of the fields of a decoded extension. -/
def fieldsBounded (p : Params) (ve : VoteExtension) : Bool :=
  (ve.encPubKey.length ≤ veMaxPointBytes ∧ ve.encPubKeyPoP.length ≤ veMaxPoPBytes)
    ∧ ve.dealing.all (dealingBounded p)
    ∧ (∀ sh ∈ ve.shares, proofBounded sh.d sh.proof)
    ∧ (∀ c ∈ ve.complaints, proofBounded c.sharedPoint c.dleqProof)
    ∧ ∀ c ∈ ve.poisonReports, proofBounded c.sharedPoint c.dleqProof

/-- `VerifyVoteExtension`: whether a peer accepts these bytes. -/
def verifyVoteExtension (decode : Bytes → Option VoteExtension) (ctx : Ctx) (s : State)
    (bz : Bytes) : Bool :=
  let p := s.params
  if bz.length = 0 then true
  else if veActive ctx p = false then false
  else if voteExtMaxBytes < bz.length then false
  else if 8 + 4 * p.voteExtShareCap < bz.count Json.openBrace then false
  else match unmarshalVoteExtension decode bz with
    | none => false
    | some ve => countsBounded p ve && fieldsBounded p ve

/-! ## Objects

The braces of an extension are counted before it is decoded. -/

/-- A quantity of a field that may be left out. -/
def fieldSum (g : Bytes → Nat) (v : Option Bytes) : Nat := (v.map g).getD 0

/-- The names of the fields of an extension and its parts. -/
def fieldNames : List String :=
  ["a", "against", "body", "commitments", "complaints", "d", "dealing", "decrypt_height",
    "dleq_proof", "enc_pubkey", "enc_pubkey_pop", "enc_shares", "epoch", "eval_point", "index",
    "member_index", "nonce", "poison_reports", "proof", "seq", "shared_point", "shares"]

theorem fieldNames_plain : ∀ name ∈ fieldNames,
    (bytesOf name).count Json.openBrace = 0 ∧ (bytesOf name).length = name.utf8ByteSize := by
  decide +kernel

theorem count_jsonObject {fields : List (String × Option Bytes)}
    (hnames : fields.map Prod.fst ⊆ fieldNames) :
    (jsonObject fields).count Json.openBrace
      = 1 + (fields.map fun f => fieldSum (List.count Json.openBrace) f.2).sum := by
  rw [jsonObject, Json.count_obj]
  · congr 1
    clear hnames
    induction fields with
    | nil => rfl
    | cons f fields ih =>
      obtain ⟨name, v⟩ := f
      cases v with
      | none => simpa [fieldSum] using ih
      | some v => simpa [fieldSum] using ih
  · intro f hf
    obtain ⟨f', hf', heq⟩ := List.mem_filterMap.mp hf
    obtain ⟨v, -, rfl⟩ := Option.map_eq_some_iff.mp heq
    exact List.count_eq_zero.mp (fieldNames_plain _ (hnames (List.mem_map_of_mem hf'))).1

@[simp] theorem fieldSum_some (g : Bytes → Nat) (v : Bytes) : fieldSum g (some v) = g v := rfl

theorem fieldSum_omitEmpty_le (g : Bytes → Nat) (b : Bytes) :
    fieldSum g (omitEmpty b) ≤ g (Json.bytes b) := by
  unfold omitEmpty
  split_ifs
  · exact Nat.zero_le _
  · exact Nat.le_refl _

theorem fieldSum_omitEmptyList_le (g : Bytes → Nat) (items : List Bytes) :
    fieldSum g (omitEmptyList items) ≤ g (Json.arr items) := by
  unfold omitEmptyList
  split_ifs
  · exact Nat.zero_le _
  · exact Nat.le_refl _

@[simp] theorem count_jsonUint64 (n : Nat) : (jsonUint64 n).count Json.openBrace = 0 :=
  Json.count_num _

@[simp] theorem count_omitEmpty (b : Bytes) :
    fieldSum (List.count Json.openBrace) (omitEmpty b) = 0 := by
  have h := fieldSum_omitEmpty_le (List.count Json.openBrace) b
  rwa [Json.count_bytes, Nat.le_zero] at h

theorem count_encShare (sh : DkgStoredEncShare) : sh.toJson.count Json.openBrace = 1 := by
  rw [DkgStoredEncShare.toJson, count_jsonObject]
  · simp
  · simp [fieldNames]

theorem count_dealing (d : VoteExtDealing) :
    d.toJson.count Json.openBrace = 1 + d.encShares.length := by
  rw [VoteExtDealing.toJson, count_jsonObject]
  · simp [Function.comp_def, count_encShare]
  · simp [fieldNames]

theorem count_share (sh : VoteExtShare) : sh.toJson.count Json.openBrace = 1 := by
  rw [VoteExtShare.toJson, count_jsonObject]
  · simp
  · simp [fieldNames]

theorem count_complaint (c : VoteExtComplaint) : c.toJson.count Json.openBrace = 1 := by
  rw [VoteExtComplaint.toJson, count_jsonObject]
  · simp
  · simp [fieldNames]

theorem count_objects {α : Type} {f : α → Bytes} (hf : ∀ x, (f x).count Json.openBrace = 1)
    (xs : List α) :
    fieldSum (List.count Json.openBrace) (omitEmptyList (xs.map f)) ≤ xs.length := by
  refine (fieldSum_omitEmptyList_le _ _).trans ?_
  simp [Function.comp_def, hf]

/-- The sealed shares of the dealing, if there is one. -/
def VoteExtension.encShares (ve : VoteExtension) : List DkgStoredEncShare :=
  (ve.dealing.map VoteExtDealing.encShares).getD []

/-- **Objects.** An extension opens a brace for itself, one for its dealing and one for each of the
objects in its lists. -/
theorem count_voteExtension_le (ve : VoteExtension) :
    ve.toJson.count Json.openBrace ≤ 2 + ve.encShares.length + ve.shares.length
      + ve.complaints.length + ve.poisonReports.length := by
  rw [VoteExtension.toJson, count_jsonObject]
  · have hshares := count_objects count_share ve.shares
    have hcomplaints := count_objects count_complaint ve.complaints
    have hreports := count_objects count_complaint ve.poisonReports
    have hdealing : fieldSum (List.count Json.openBrace) (ve.dealing.map VoteExtDealing.toJson)
        ≤ 1 + ve.encShares.length := by
      unfold VoteExtension.encShares
      cases ve.dealing with
      | none => simp [fieldSum]
      | some d => simp [count_dealing]
    simp only [List.map_cons, List.map_nil, List.sum_cons, List.sum_nil, count_omitEmpty]
    omega
  · simp [fieldNames]

/-! ## Bytes

The bytes of an extension are bounded by its counts, once its fields are of honest size. -/

theorem length_jsonObject_le {fields : List (String × Option Bytes)} (k : Nat)
    (hnames : fields.map Prod.fst ⊆ fieldNames)
    (hk : ((fields.map Prod.fst).map String.utf8ByteSize).sum = k) :
    (jsonObject fields).length
      ≤ k + (fields.map fun f => fieldSum List.length f.2 + 4).sum + 2 := by
  subst hk
  refine (Json.length_obj_le _).trans (Nat.add_le_add_right ?_ 2)
  induction fields with
  | nil => exact Nat.le_refl 0
  | cons f fields ih =>
    obtain ⟨name, v⟩ := f
    obtain ⟨hname, hrest⟩ := List.cons_subset.mp hnames
    have hlen := (fieldNames_plain name hname).2
    replace ih := ih hrest
    cases v with
    | none =>
      simp only [List.filterMap_cons, Option.map_none, List.map_cons, List.sum_cons] at ih ⊢
      omega
    | some v =>
      simp only [List.filterMap_cons, Option.map_some, List.map_cons, List.sum_cons,
        fieldSum_some] at ih ⊢
      omega

theorem length_jsonUint64_le (n : Nat) : (jsonUint64 n).length ≤ 20 :=
  Json.length_num_le (by decide) ((wrap64_lt n).trans (by decide))

theorem length_jsonBytes_le {b : Bytes} {n : Nat} (h : b.length ≤ n) :
    (Json.bytes b).length ≤ 4 * ((n + 2) / 3) + 2 := by
  rw [Json.length_bytes]
  omega

theorem length_omitEmpty_le {b : Bytes} {n : Nat} (h : b.length ≤ n) :
    fieldSum List.length (omitEmpty b) ≤ 4 * ((n + 2) / 3) + 2 :=
  (fieldSum_omitEmpty_le _ _).trans (length_jsonBytes_le h)

theorem length_objects_le {α : Type} {f : α → Bytes} {xs : List α} {k : Nat}
    (hf : ∀ x ∈ xs, (f x).length ≤ k) :
    fieldSum List.length (omitEmptyList (xs.map f)) ≤ xs.length * (k + 1) + 2 := by
  refine (fieldSum_omitEmptyList_le _ _).trans ?_
  have hall : ∀ b ∈ xs.map f, b.length ≤ k := fun b hb => by
    obtain ⟨x, hx, rfl⟩ := List.mem_map.mp hb
    exact hf x hx
  simpa using Json.length_arr_le _ hall

theorem length_encShare_le {es : DkgStoredEncShare} (ha : es.a.length ≤ veMaxPointBytes)
    (hbody : es.body.length ≤ veMaxEncShareBodyBytes) (hnonce : es.nonce.length ≤ nonceSize) :
    es.toJson.length ≤ 298 := by
  refine (length_jsonObject_le 22 (by simp [fieldNames]) rfl).trans ?_
  have hindex := length_jsonUint64_le es.memberIndex
  have ha := length_jsonBytes_le ha
  have hbody := length_jsonBytes_le hbody
  have hnonce := length_jsonBytes_le hnonce
  simp only [veMaxPointBytes, veMaxEncShareBodyBytes, nonceSize] at ha hbody hnonce
  simp only [List.map_cons, List.map_nil, List.sum_cons, List.sum_nil, fieldSum_some]
  omega

theorem length_share_le {sh : VoteExtShare} (h : proofBounded sh.d sh.proof = true) :
    sh.toJson.length ≤ 275 := by
  obtain ⟨hd, hproof⟩ := of_decide_eq_true h
  refine (length_jsonObject_le 33 (by simp [fieldNames]) rfl).trans ?_
  have hepoch := length_jsonUint64_le sh.epoch
  have hheight := length_jsonUint64_le sh.decryptHeight
  have hseq := length_jsonUint64_le sh.seq
  have hindex := length_jsonUint64_le sh.index
  have hd := length_jsonBytes_le hd
  have hproof := length_jsonBytes_le hproof
  simp only [veMaxPointBytes, veMaxDleqProofBytes] at hd hproof
  simp only [List.map_cons, List.map_nil, List.sum_cons, List.sum_nil, fieldSum_some]
  omega

theorem length_complaint_le {c : VoteExtComplaint}
    (h : proofBounded c.sharedPoint c.dleqProof = true) : c.toJson.length ≤ 262 := by
  obtain ⟨hpoint, hproof⟩ := of_decide_eq_true h
  refine (length_jsonObject_le 44 (by simp [fieldNames]) rfl).trans ?_
  have hepoch := length_jsonUint64_le c.epoch
  have hagainst := length_jsonUint64_le c.against
  have hindex := length_jsonUint64_le c.evalPoint
  have hpoint := length_omitEmpty_le hpoint
  have hproof := length_omitEmpty_le hproof
  simp only [veMaxPointBytes, veMaxDleqProofBytes] at hpoint hproof
  simp only [List.map_cons, List.map_nil, List.sum_cons, List.sum_nil, fieldSum_some]
  omega

theorem length_dealing_le {p : Params} {d : VoteExtDealing} (h : dealingBounded p d = true) :
    d.toJson.length ≤ 346 * p.effectiveShareBudget + 64 := by
  obtain ⟨hcommitments, hshares, hpoints, hsealed⟩ := of_decide_eq_true h
  refine (length_jsonObject_le 26 (by simp [fieldNames]) rfl).trans ?_
  have hepoch := length_jsonUint64_le d.epoch
  have hcommit : (Json.arr (d.commitments.map Json.bytes)).length ≤ d.commitments.length * 47 + 2 := by
    have hall : ∀ b ∈ d.commitments.map Json.bytes, b.length ≤ 46 := fun b hb => by
      obtain ⟨c, hc, rfl⟩ := List.mem_map.mp hb
      exact length_jsonBytes_le (hpoints c hc)
    simpa using Json.length_arr_le _ hall
  have henc : (Json.arr (d.encShares.map DkgStoredEncShare.toJson)).length
      ≤ d.encShares.length * 299 + 2 := by
    have hall : ∀ b ∈ d.encShares.map DkgStoredEncShare.toJson, b.length ≤ 298 := fun b hb => by
      obtain ⟨es, hes, rfl⟩ := List.mem_map.mp hb
      obtain ⟨ha, hbody, hnonce⟩ := hsealed es hes
      exact length_encShare_le ha hbody hnonce
    simpa using Json.length_arr_le _ hall
  simp only [List.map_cons, List.map_nil, List.sum_cons, List.sum_nil, fieldSum_some]
  omega

/-- **Bytes.** An extension within its counts fits the byte limit, for a budget and a committee that
parameters may have. -/
theorem length_voteExtension_le {p : Params} {ve : VoteExtension}
    (hbudget : p.effectiveShareBudget ≤ 1024) (hmembers : p.effectiveMaxMembers ≤ 128)
    (hcounts : countsBounded p ve = true) (hfields : fieldsBounded p ve = true) :
    (marshalVoteExtension ve).length ≤ voteExtMaxBytes := by
  obtain ⟨hshares, -, hcomplaints, hreports⟩ := of_decide_eq_true hcounts
  obtain ⟨⟨hkey, hpop⟩, hdealing, hshare, hcomplaint, hreport⟩ := of_decide_eq_true hfields
  have hcap : p.voteExtShareCap ≤ 1024 := by
    unfold Params.voteExtShareCap voteExtShareFloor
    split_ifs <;> omega
  have hkey := length_omitEmpty_le hkey
  have hpop := length_omitEmpty_le hpop
  have hd : fieldSum List.length (ve.dealing.map VoteExtDealing.toJson) ≤ 346 * 1024 + 64 := by
    cases hve : ve.dealing with
    | none => exact Nat.zero_le _
    | some d =>
      rw [hve] at hdealing
      have hle := length_dealing_le hdealing
      simp only [Option.map_some, fieldSum_some]
      omega
  have hs : fieldSum List.length (omitEmptyList (ve.shares.map VoteExtShare.toJson)) ≤ _ :=
    length_objects_le fun sh hsh => length_share_le (hshare sh hsh)
  have hc : fieldSum List.length (omitEmptyList (ve.complaints.map VoteExtComplaint.toJson)) ≤ _ :=
    length_objects_le fun c hc => length_complaint_le (hcomplaint c hc)
  have hr : fieldSum List.length (omitEmptyList (ve.poisonReports.map VoteExtComplaint.toJson)) ≤ _ :=
    length_objects_le fun c hc => length_complaint_le (hreport c hc)
  have hlen : ve.toJson.length ≤ _ := length_jsonObject_le 61 (by simp [fieldNames]) rfl
  simp only [veMaxPointBytes, veMaxPoPBytes] at hkey hpop
  simp only [List.map_cons, List.map_nil, List.sum_cons, List.sum_nil] at hlen
  simp only [marshalVoteExtension, List.length_cons, voteExtMaxBytes]
  omega

/-! ## Acceptance -/

/-- **Acceptance.** A peer accepts an extension that its decoder reads back exactly if the numbers and
the bytes of its parts are bounded: the bounds on the whole text follow. -/
theorem verifyVoteExtension_iff {decode : Bytes → Option VoteExtension} {ctx : Ctx} {s : State}
    {ve : VoteExtension} (hactive : veActive ctx s.params = true)
    (hbudget : s.params.effectiveShareBudget ≤ 1024)
    (hmembers : 8 * s.params.effectiveMaxMembers ≤ s.params.effectiveShareBudget)
    (hdecode : decode ve.toJson = some ve) :
    verifyVoteExtension decode ctx s (marshalVoteExtension ve) = true
      ↔ countsBounded s.params ve = true ∧ fieldsBounded s.params ve = true := by
  have hunmarshal : unmarshalVoteExtension decode (marshalVoteExtension ve) = some ve := by
    rw [marshalVoteExtension, unmarshalVoteExtension, if_pos rfl, hdecode]
  have hne : (marshalVoteExtension ve).length ≠ 0 := Nat.succ_ne_zero _
  unfold verifyVoteExtension
  simp only [hunmarshal, hactive, if_neg hne, Bool.true_eq_false, if_false]
  constructor
  · intro h
    split_ifs at h
    exact Bool.and_eq_true _ _ ▸ h
  · rintro ⟨hcounts, hfields⟩
    have hbytes := length_voteExtension_le hbudget (by omega) hcounts hfields
    have hobjects : (marshalVoteExtension ve).count Json.openBrace
        ≤ 8 + 4 * s.params.voteExtShareCap := by
      obtain ⟨hshares, -, hcomplaints, hreports⟩ := of_decide_eq_true hcounts
      obtain ⟨-, hdealing, -⟩ := of_decide_eq_true hfields
      have hsealed : ve.encShares.length ≤ s.params.effectiveShareBudget := by
        unfold VoteExtension.encShares
        cases hve : ve.dealing with
        | none => exact Nat.zero_le _
        | some d =>
          rw [hve] at hdealing
          exact (of_decide_eq_true hdealing).2.1
      have hcap : s.params.effectiveShareBudget ≤ s.params.voteExtShareCap := by
        unfold Params.voteExtShareCap
        split_ifs with hfloor
        · exact le_rfl
        · exact Nat.not_lt.mp hfloor
      have hcount := count_voteExtension_le ve
      have hversion : voteExtVersion ≠ Json.openBrace := by decide
      rw [marshalVoteExtension, List.count_cons_of_ne hversion]
      omega
    rw [if_neg (Nat.not_lt.mpr hbytes), if_neg (Nat.not_lt.mpr hobjects), hcounts, hfields]
    rfl

end EncMempool
