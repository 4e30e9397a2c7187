import Limonata.Lib.PairedIndex
import Limonata.EncMempool.Simulation

/-!
# x/encmempool — the registry of encryption keys

A key is announced on a vote extension, rotated, dropped when its operator is no longer bonded, and
carried over by a genesis. The store keeps a forward index from operators to keys and a reverse
index from keys to operators. The two stay inverse to each other whatever is announced. The reverse
index is what the uniqueness check reads, and it compares byte strings: the point parser takes the
compressed and the uncompressed encoding of a point, so a point is unique only among keys of one
encoding.
-/

namespace EncMempool

open Machine Check KVStore

variable {X : External} {ctx : Ctx}
variable {s s' : State} {gs : GenesisState}

/-- How the point parser treats encodings: it takes 33 bytes (compressed) or 65 bytes (uncompressed
or hybrid), and a point has one compressed encoding. -/
structure EncodesPoints (X : External) : Prop where
  length : ∀ b P, X.parsePubKey b = some P → b.length = 33 ∨ b.length = 65
  compressed : ∀ b b' P, b.length = 33 → b'.length = 33 → X.parsePubKey b = some P →
    X.parsePubKey b' = some P → b = b'

theorem EncodesPoints.ofTables {t : Tables}
    (hlen : ∀ p ∈ t.points, p.2.length = 33 ∨ p.2.length = 65)
    (hinj : ∀ p ∈ t.points, ∀ q ∈ t.points, p.2.length = 33 → q.2.length = 33 → p.1 = q.1 →
      p.2 = q.2) : EncodesPoints (.ofTables t) := by
  have hmem : ∀ (b : Bytes) (P : Nat), (External.ofTables t).parsePubKey b = some P →
      (P, b) ∈ t.points := by
    intro b P h
    obtain ⟨p, hp, rfl⟩ := Option.map_eq_some_iff.mp h
    have hb : p.2 = b := by simpa using List.find?_some hp
    exact hb ▸ List.mem_of_find?_eq_some hp
  refine ⟨fun b P h => hlen _ (hmem b P h), fun b b' P hb hb' h h' => ?_⟩
  exact hinj _ (hmem b P h) _ (hmem b' P h') hb hb' rfl

/-- The two indexes are inverse to each other, over operators and keys that pass the checks. -/
structure State.RegistryInv (X : External) (s : State) : Prop where
  paired : s.encPubKeys.Paired s.encKeyOwners
  operator : ∀ op key, s.encPubKeys.lookup op = some key → op ≠ []
  key : ∀ op key, s.encPubKeys.lookup op = some key → validCompressedPoint X key = true

/-- Every registered key has a property of keys. -/
def State.KeysAll (s : State) (P : Bytes → Prop) : Prop :=
  ∀ op key, s.encPubKeys.lookup op = some key → P key

namespace State

theorem pos_length_of_valid (hX : EncodesPoints X) {key : Bytes}
    (h : validCompressedPoint X key = true) : 0 < key.length := by
  obtain ⟨P, hP⟩ := Option.isSome_iff_exists.mp h
  cases hX.length key P hP with
  | inl hlen => omega
  | inr hlen => omega

theorem RegistryInv.getEncPubKey (h : s.RegistryInv X) (hX : EncodesPoints X) (operator : Bytes) :
    s.getEncPubKey operator = s.encPubKeys.lookup operator := by
  unfold State.getEncPubKey
  cases hkey : s.encPubKeys.lookup operator with
  | none => rfl
  | some key =>
    have hpos := pos_length_of_valid hX (h.key operator key hkey)
    simp [Option.filter, hpos]

theorem RegistryInv.getEncKeyOwner (h : s.RegistryInv X) (key : Bytes) :
    s.getEncKeyOwner key = s.encKeyOwners.lookup key := by
  unfold State.getEncKeyOwner
  cases howner : s.encKeyOwners.lookup key with
  | none => rfl
  | some op =>
    have hne := h.operator op key ((h.paired op key).mpr howner)
    simp [Option.filter, List.length_pos_iff.mpr hne]

theorem RegistryInv.ownersWithout (h : s.RegistryInv X) (hX : EncodesPoints X) (operator : Bytes) :
    s.ownersWithout operator = KVStore.unlink s.encPubKeys s.encKeyOwners operator := by
  unfold State.ownersWithout KVStore.unlink
  rw [h.getEncPubKey hX]
  cases s.encPubKeys.lookup operator <;> rfl

theorem RegistryInv.announce {operator key : Bytes} (h : s.RegistryInv X) (hX : EncodesPoints X)
    (hop : operator ≠ []) (hkey : validCompressedPoint X key = true)
    (howner : ∀ o, s.getEncKeyOwner key = some o → o = operator)
    (hpub : s'.encPubKeys = s.encPubKeys.assign operator key)
    (hrev : s'.encKeyOwners = (s.ownersWithout operator).assign key operator) :
    s'.RegistryInv X := by
  have hlookup : ∀ op k, s'.encPubKeys.lookup op = some k →
      (op = operator ∧ k = key) ∨ s.encPubKeys.lookup op = some k := by
    intro op k hk
    rw [hpub, lookup_assign] at hk
    split_ifs at hk with heq
    · exact .inl ⟨heq, (Option.some.inj hk).symm⟩
    · exact .inr hk
  refine ⟨?_, fun op k hk => ?_, fun op k hk => ?_⟩
  · rw [hpub, hrev, h.ownersWithout hX]
    exact h.paired.assign fun j hj => howner j ((h.getEncKeyOwner key).trans hj)
  · cases hlookup op k hk with
    | inl hnew => exact hnew.1 ▸ hop
    | inr hold => exact h.operator op k hold
  · cases hlookup op k hk with
    | inl hnew => exact hnew.2 ▸ hkey
    | inr hold => exact h.key op k hold

theorem RegistryInv.deleteEncPubKey (h : s.RegistryInv X) (hX : EncodesPoints X) (operator : Bytes) :
    (s.deleteEncPubKey operator).RegistryInv X := by
  have hlookup : ∀ op k, (s.deleteEncPubKey operator).encPubKeys.lookup op = some k →
      s.encPubKeys.lookup op = some k := by
    intro op k hk
    unfold State.deleteEncPubKey at hk
    simp only [lookup_del] at hk
    split_ifs at hk
    exact hk
  refine ⟨?_, fun op k hk => h.operator op k (hlookup op k hk),
    fun op k hk => h.key op k (hlookup op k hk)⟩
  unfold State.deleteEncPubKey
  simp only [h.ownersWithout hX]
  exact h.paired.del operator

theorem KeysAll.deleteEncPubKey {P : Bytes → Prop} (h : s.KeysAll P) (operator : Bytes) :
    (s.deleteEncPubKey operator).KeysAll P := by
  intro op k hk
  unfold State.deleteEncPubKey at hk
  simp only [lookup_del] at hk
  split_ifs at hk
  exact h op k hk

end State

/-! ## The import -/

theorem GenesisState.checkEncKeys_sound {krs : List EncKeyReg} {i : Nat}
    {seenOp seenKey : List Bytes} (h : GenesisState.checkEncKeys X i seenOp seenKey krs = .ok ()) :
    ((krs.map EncKeyReg.operator).Nodup ∧ ∀ kr ∈ krs, kr.operator ∉ seenOp)
      ∧ ((krs.map EncKeyReg.key).Nodup ∧ ∀ kr ∈ krs, kr.key ∉ seenKey)
      ∧ ∀ kr ∈ krs, kr.operator ≠ [] ∧ validCompressedPoint X kr.key = true := by
  induction krs generalizing i seenOp seenKey with
  | nil => simp
  | cons kr krs ih =>
    simp only [GenesisState.checkEncKeys, bind_unit_eq_ok, rejectIf_eq_ok] at h
    obtain ⟨hop, hnewOp, hkey, hnewKey, hrest⟩ := h
    obtain ⟨⟨hops, hopSeen⟩, ⟨hkeys, hkeySeen⟩, hall⟩ := ih hrest
    refine ⟨⟨?_, ?_⟩, ⟨?_, ?_⟩, List.forall_mem_cons.mpr ⟨⟨hop, by simpa using hkey⟩, hall⟩⟩
    · refine List.nodup_cons.mpr ⟨fun hmem => ?_, hops⟩
      obtain ⟨x, hx, heq⟩ := List.mem_map.mp hmem
      exact hopSeen x hx (heq ▸ List.mem_cons_self)
    · exact List.forall_mem_cons.mpr ⟨hnewOp, fun x hx hmem => hopSeen x hx (.tail _ hmem)⟩
    · refine List.nodup_cons.mpr ⟨fun hmem => ?_, hkeys⟩
      obtain ⟨x, hx, heq⟩ := List.mem_map.mp hmem
      exact hkeySeen x hx (heq ▸ List.mem_cons_self)
    · exact List.forall_mem_cons.mpr ⟨hnewKey, fun x hx hmem => hkeySeen x hx (.tail _ hmem)⟩

theorem State.RegistryInv.genesis (h : State.initGenesis X gs = .ok s) : s.RegistryInv X
      ∧ ∀ op key, s.encPubKeys.lookup op = some key ↔ ⟨op, key⟩ ∈ gs.encKeys := by
  have himp := State.initGenesis_imported h
  obtain ⟨⟨hops, -⟩, ⟨hkeys, -⟩, hall⟩ :=
    GenesisState.checkEncKeys_sound (State.initGenesis_spec h).1.encKeys
  have hlookup : ∀ op key, s.encPubKeys.lookup op = some key ↔ ⟨op, key⟩ ∈ gs.encKeys := by
    intro op key
    rw [himp.encPubKeys, lookup_foldl_assign EncKeyReg.operator EncKeyReg.key hops]
    refine ⟨?_, fun hmem => ⟨_, hmem, rfl, rfl⟩⟩
    rintro ⟨kr, hkr, rfl, rfl⟩
    exact hkr
  refine ⟨⟨?_, fun op key hk => ?_, fun op key hk => ?_⟩, hlookup⟩
  · rw [himp.encPubKeys, himp.encKeyOwners]
    exact .load EncKeyReg.operator EncKeyReg.key hops hkeys
  · exact (hall _ ((hlookup op key).mp hk)).1
  · exact (hall _ ((hlookup op key).mp hk)).2

/-! ## Runs of the chain -/

namespace State

theorem RegistryInv.congr (h : s.RegistryInv X) (hpub : s'.encPubKeys = s.encPubKeys)
    (hrev : s'.encKeyOwners = s.encKeyOwners) :
    s'.RegistryInv X :=
  ⟨by rw [hpub, hrev]; exact h.paired, by rw [hpub]; exact h.operator, by rw [hpub]; exact h.key⟩

theorem RegistryInv.write {w : Wraps} (hX : EncodesPoints X) (hwrite : Write X ctx w s s')
    (h : s.RegistryInv X) : s'.RegistryInv X := by
  have hprune (t : State) (epoch : Nat) (hpub : t.encPubKeys = s.encPubKeys)
      (hrev : t.encKeyOwners = s.encKeyOwners) : (t.maybePruneEpoch epoch).RegistryInv X := by
    obtain ⟨d, c, rc, ak, sk, cu, st, r, hframe⟩ := maybePruneEpoch_frame t epoch
    rw [hframe]
    exact h.congr hpub hrev
  cases hwrite with
  | ledger hcore =>
    exact h.congr (congrArg State.encPubKeys hcore : s'.core.encPubKeys = _)
      (congrArg State.encKeyOwners hcore : s'.core.encKeyOwners = _)
  | announce hop hkey howner => exact h.announce hX hop hkey howner rfl rfl
  | dropKey operator => exact h.deleteEncPubKey hX operator
  | release he => exact hprune _ _ rfl rfl
  | activate => exact hprune _ _ rfl rfl
  | openRound hbase _ _ _ hopen =>
    obtain ⟨r, -, -, -, -, -, -, rfl⟩ := openRound_spec hopen
    obtain ⟨rfl, -⟩ | ⟨rfl, -⟩ := hbase
    · exact h.congr rfl rfl
    · exact h.congr rfl rfl
  | _ => exact h.congr rfl rfl

end State

theorem Chain.Reachable.registryInv (hX : EncodesPoints X) {allow : Allow} {h : Nat} {c : Chain}
    (hreach : Chain.Reachable X allow gs h c) : c.state.RegistryInv X := by
  refine hreach.by_writes (w := ⟨True, True, True⟩) (I := fun _ s => s.RegistryInv X) trivial (.inl trivial)
    (.inl trivial) (fun _ hs => (State.RegistryInv.genesis hs).1) (fun _ _ _ _ hs => hs)
    (fun _ _ _ hwrite hs => hs.write hX hwrite) (fun _ _ _ _ _ hs => hs.congr rfl rfl)
    fun _ _ _ _ _ hok hs => ?_
  obtain ⟨-, -, -, rfl⟩ := State.submitDecryptionShare_spec hok
  exact hs.congr rfl rfl

/-! ## Runs of the registry -/

/-- The operations on the registry. -/
inductive RegistryOp where
  | record (ctx : Ctx) (operator key pop : Bytes)
  | delete (operator : Bytes)
  | gc (ctx : Ctx)

def State.registryStep (X : External) (s : State) : RegistryOp → State
  | .record ctx operator key pop => (s.recordEncPubKey X ctx operator key pop).1
  | .delete operator => s.deleteEncPubKey operator
  | .gc ctx => s.gcStaleEncKeys ctx

/-- No key is announced in its uncompressed encoding. -/
def RegistryOp.Compressed : RegistryOp → Prop
  | .record _ _ key _ => key.length ≠ 65
  | .delete _ => True
  | .gc _ => True

instance : DecidablePred RegistryOp.Compressed
  | .record _ _ key _ => inferInstanceAs (Decidable (key.length ≠ 65))
  | .delete _ => inferInstanceAs (Decidable True)
  | .gc _ => inferInstanceAs (Decidable True)

/-- The states reached from an imported genesis by registry operations. -/
def RegistryReachable (X : External) (allow : RegistryOp → Prop) (gs : GenesisState) (s : State) :
    Prop :=
  ∃ s₀, State.initGenesis X gs = .ok s₀
    ∧ Relation.ReflTransGen (fun s s' => ∃ op, allow op ∧ s' = s.registryStep X op) s₀ s

namespace State

theorem RegistryInv.step (h : s.RegistryInv X) (hX : EncodesPoints X) (op : RegistryOp) :
    (s.registryStep X op).RegistryInv X := by
  cases op with
  | record ctx operator key pop =>
    show (s.recordEncPubKey X ctx operator key pop).1.RegistryInv X
    obtain hsame | ⟨hop, hkey, howner, hnew⟩ := recordEncPubKey_cases s operator key pop
    · rw [hsame]
      exact h
    · rw [hnew]
      exact h.announce hX hop hkey howner rfl rfl
  | delete operator => exact h.deleteEncPubKey hX operator
  | gc ctx =>
    exact Reach.foldl_keeps (I := fun t : State => t.RegistryInv X)
      (fun t op _ ht => ht.deleteEncPubKey hX op) h

theorem KeysAll.step {P : Bytes → Prop} (h : s.KeysAll P) {op : RegistryOp}
    (hop : ∀ ctx operator key pop, op = .record ctx operator key pop → P key) :
    (s.registryStep X op).KeysAll P := by
  cases op with
  | record ctx operator key pop =>
    show (s.recordEncPubKey X ctx operator key pop).1.KeysAll P
    obtain hsame | ⟨-, -, -, hnew⟩ := recordEncPubKey_cases s operator key pop
    · rw [hsame]
      exact h
    · rw [hnew]
      intro o k hk
      rw [lookup_assign] at hk
      split_ifs at hk
      · exact Option.some.inj hk ▸ hop ctx operator key pop rfl
      · exact h o k hk
  | delete operator => exact h.deleteEncPubKey operator
  | gc ctx =>
    exact Reach.foldl_keeps (I := fun t : State => t.KeysAll P)
      (fun t op _ ht => ht.deleteEncPubKey op) h

end State

theorem RegistryReachable.exists_of_ops {allow : RegistryOp → Prop} {P : State → Prop}
    [DecidablePred P] (ops : List RegistryOp) (hallow : ∀ op ∈ ops, allow op)
    (hplay : ((State.initGenesis X gs).toOption.any fun s =>
      P (ops.foldl (State.registryStep X) s)) = true) :
    ∃ s, RegistryReachable X allow gs s ∧ P s := by
  cases hinit : State.initGenesis X gs with
  | error err => simp [hinit, Except.toOption] at hplay
  | ok s =>
    rw [hinit] at hplay
    refine ⟨_, ⟨s, hinit, ?_⟩, of_decide_eq_true hplay⟩
    exact Reach.foldl_run (I := fun _ => True) (fun _ _ _ _ => trivial)
      (fun t op hop _ => .single ⟨op, hallow op hop, rfl⟩) trivial

theorem RegistryReachable.registryInv (hX : EncodesPoints X) {allow : RegistryOp → Prop}
    (h : RegistryReachable X allow gs s) : s.RegistryInv X := by
  obtain ⟨s₀, hs₀, hrun⟩ := h
  refine Reach.run_keeps (I := fun t : State => t.RegistryInv X) ?_ hrun
    (State.RegistryInv.genesis hs₀).1
  rintro t t' ⟨op, -, rfl⟩ ht
  exact ht.step hX op

/-- **The registry of encryption keys.** Whatever is announced, deleted, collected and imported, the
forward and the reverse index are inverse to each other. If no key is imported or announced in its
uncompressed encoding, no two operators are registered under one point. -/
theorem encKeys_unique (hX : EncodesPoints X) {gs : GenesisState} {s : State} :
    (RegistryReachable X (fun _ => True) gs s → s.encPubKeys.Paired s.encKeyOwners)
    ∧ ((∀ kr ∈ gs.encKeys, kr.key.length ≠ 65) →
      RegistryReachable X RegistryOp.Compressed gs s →
      ∀ op op' key key' P, s.encPubKeys.lookup op = some key →
        s.encPubKeys.lookup op' = some key' → X.parsePubKey key = some P →
        X.parsePubKey key' = some P → op = op') := by
  refine ⟨fun hreach => (hreach.registryInv hX).paired, fun hgenesis hreach => ?_⟩
  have hinv := hreach.registryInv hX
  obtain ⟨s₀, hs₀, hrun⟩ := hreach
  have hlen : s.KeysAll (fun key => key.length ≠ 65) := by
    refine Reach.run_keeps (I := fun t : State => t.KeysAll fun key => key.length ≠ 65) ?_ hrun ?_
    · rintro t t' ⟨op, hop, rfl⟩ ht
      exact ht.step fun ctx operator key pop heq => by
        subst heq
        exact hop
    · exact fun op key hk => hgenesis _ (((State.RegistryInv.genesis hs₀).2 op key).mp hk)
  intro op op' key key' P hkey hkey' hP hP'
  -- both keys are compressed, so one point means one key
  have hshort := (hX.length key P hP).resolve_right (hlen op key hkey)
  have hshort' := (hX.length key' P hP').resolve_right (hlen op' key' hkey')
  have hsame : key = key' := hX.compressed key key' P hshort hshort' hP hP'
  exact hinv.paired.injective hkey (hsame ▸ hkey')

namespace Sample

/-- The uncompressed encoding of `2 G`. -/
def uncompressed : Bytes :=
  beBytes 65 0x04C6047F9441ED7D6D3045406E95C07CD85C778E4B8CEF3CA7ABAC09B95C709EE51AE168FEA63DC339A3C58419466CEAEEF7F632653266D0E1236431A950CFE52A

/-- The proofs of possession of the secret `2` by the two operators. -/
def pop : Bytes :=
  beBytes 71 0x3045022100F01D6B9018AB421DD410404CB869072065522BF85734008F105CF385A023A80F022011A3493682DC3DB67673B95D1926F8AFC09C2A3E6197DDA85A2AFF12ECAF3E34

def popDigest : Bytes :=
  beBytes 32 0xAADAAE8C3D456F9A6A6539D8777C4933FCD1061AE565245A99D33E1A9AAF2226

def dealerPop : Bytes :=
  beBytes 71 0x304502210089B6BD7A7C385383FF466DB721729E2F4AB4C650BB72E2DEDFAFD6FF61277A55022046E7F56E8C2D58E7D8D30A8F6A4E1B5E15DE2275D41EBF98B0A124ABCF160095

def dealerPopDigest : Bytes :=
  beBytes 32 0x7B24DA5F4A80F626B33E6CFE77EEAC0382AEF9D60C52E6395D4073AE5465DF3E

def registryPrimitives : External :=
  .ofTables
    { points := points ++ [(2, uncompressed)], accounts := [account]
      digests :=
        [(bytesOf "LIMO-DKG-ENCKEY-POP\x00" ++ operator, popDigest),
         (bytesOf "LIMO-DKG-ENCKEY-POP\x00" ++ dealerOperator, dealerPopDigest)]
      signed := [(pop, popDigest, 2), (dealerPop, dealerPopDigest, 2)] }

theorem registryPrimitives_encodesPoints : EncodesPoints registryPrimitives :=
  .ofTables (by decide +kernel) (by decide +kernel)

theorem parse_point : registryPrimitives.parsePubKey (point 2) = some (2 : Nat) :=
  (by decide +kernel : ((points ++ [(2, uncompressed)]).find?
    (fun p : Nat × Bytes => p.2 = point 2)).map Prod.fst = some 2)

theorem parse_uncompressed : registryPrimitives.parsePubKey uncompressed = some (2 : Nat) :=
  (by decide +kernel : ((points ++ [(2, uncompressed)]).find?
    (fun p : Nat × Bytes => p.2 = uncompressed)).map Prod.fst = some 2)

/-- An operator announces the key `2 G`. -/
def announced (key : Bytes) : RegistryOp := .record (block 10 (by decide)) operator key pop

def dealerAnnounced (key : Bytes) : RegistryOp :=
  .record (block 10 (by decide)) dealerOperator key dealerPop

end Sample

open Sample

/-- Two operators with one secret announce its point in one encoding: the second is refused. -/
theorem encKeys_unique_announced : ∃ s,
    RegistryReachable registryPrimitives RegistryOp.Compressed (genesis 0 []) s
      ∧ s.encPubKeys.lookup operator = some (point 2)
      ∧ ∀ op, s.encPubKeys.lookup op = some (point 2) → operator = op := by
  obtain ⟨s, hreach, hkey⟩ : ∃ s, RegistryReachable registryPrimitives
      RegistryOp.Compressed (genesis 0 []) s
        ∧ s.encPubKeys.lookup operator = some (point 2) :=
    RegistryReachable.exists_of_ops
      [announced (point 2), dealerAnnounced (point 2)]
      (by decide +kernel) (by decide +kernel)
  refine ⟨s, hreach, hkey, fun op hop => ?_⟩
  have hparse := parse_point
  exact (encKeys_unique registryPrimitives_encodesPoints).2 (by simp [genesis])
    hreach _ _ _ _ _ hkey hop hparse hparse

/-- The second operator announces the uncompressed encoding and is registered under the same
point. -/
theorem encKeys_shared_point : EncodesPoints registryPrimitives
    ∧ ∃ s, RegistryReachable registryPrimitives (fun _ => True) (genesis 0 []) s
      ∧ s.encPubKeys.lookup operator = some (point 2)
      ∧ s.encPubKeys.lookup dealerOperator = some uncompressed
      ∧ operator ≠ dealerOperator
      ∧ registryPrimitives.parsePubKey (point 2)
        = registryPrimitives.parsePubKey uncompressed := by
  refine ⟨registryPrimitives_encodesPoints, ?_⟩
  obtain ⟨s, hreach, hkey, hkey'⟩ : ∃ s, RegistryReachable registryPrimitives
      (fun _ => True) (genesis 0 []) s
        ∧ s.encPubKeys.lookup operator = some (point 2)
        ∧ s.encPubKeys.lookup dealerOperator = some uncompressed :=
    RegistryReachable.exists_of_ops
      [announced (point 2), dealerAnnounced uncompressed]
      (fun _ _ => trivial) (by decide +kernel)
  have hparse := parse_point
  exact ⟨s, hreach, hkey, hkey', by decide +kernel, hparse.trans parse_uncompressed.symm⟩

end EncMempool
