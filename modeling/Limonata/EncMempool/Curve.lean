import Limonata.EncMempool.Crypto
import Limonata.Lib.Primality

/-!
# x/encmempool — the curve as a group over its scalar field

`External.IsCurve` reads the point and scalar primitives as the operations of a vector space over
the scalar field, in which every point but the identity has an encoding that parses back.
`External.ofGroup` has this structure: the group of the curve's order, with the curve's own
encodings, digests and sealed boxes on the inputs of a table.
-/

namespace EncMempool

/-- The primitives are the operations of a group of points over its scalar field. -/
structure External.IsCurve (X : External) [Field X.Scalar] [AddCommGroup X.Point]
    [Module X.Scalar X.Point] (G : X.Point) : Prop where
  addPoint : ∀ P Q, X.addPoint P Q = P + Q
  mulPoint : ∀ k P, X.mulPoint k P = k • P
  baseMul : ∀ k, X.baseMul k = k • G
  base_ne : G ≠ 0
  scalarOfUint32 : ∀ v : Nat, v < 2 ^ 32 → X.scalarOfUint32 v = v
  /-- The order is above every index. -/
  index_inj : ∀ i j : Nat, i < 2 ^ 32 → j < 2 ^ 32 → (i : X.Scalar) = j → i = j
  scalarAdd : ∀ a b, X.scalarAdd a b = a + b
  scalarMul : ∀ a b, X.scalarMul a b = a * b
  scalarNegate : ∀ a, X.scalarNegate a = -a
  scalarInverse : ∀ a, X.scalarInverse a = a⁻¹
  scalarIsZero : ∀ a, X.scalarIsZero a = true ↔ a = 0
  scalarBytes : ∀ a, (X.scalarBytes a).length = 32 ∧ X.scalarSetBytes (X.scalarBytes a) = (a, false)
  encodes : ∀ P ≠ 0, X.parsePubKey (X.serializeCompressed P) = some P
  /-- The encoding written for the point at infinity is not on the curve. -/
  identity : X.parsePubKey (X.serializeCompressed 0) = none

section IsCurve

variable {X : External} [Field X.Scalar] [AddCommGroup X.Point] [Module X.Scalar X.Point]
  {G : X.Point}

theorem External.IsCurve.eq_of_parse (hX : X.IsCurve G) {P Q : X.Point}
    (hparse : X.parsePubKey (X.serializeCompressed P) = some Q) : Q = P := by
  by_cases hP : P = 0
  · rw [hP, hX.identity] at hparse
    cases hparse
  · exact Option.some.inj (hparse.symm.trans (hX.encodes P hP))

theorem External.IsCurve.ne_zero_of_parse (hX : X.IsCurve G) {P : X.Point}
    (hparse : (X.parsePubKey (X.serializeCompressed P)).isSome = true) : P ≠ 0 := by
  intro hP
  rw [hP, hX.identity] at hparse
  cases hparse

end IsCurve

/-! ## Numbers as bytes -/

theorem natOfBytes_append_singleton (bs : Bytes) (b : Byte) :
    natOfBytes (bs ++ [b]) = natOfBytes bs * 256 + b := by
  simp [natOfBytes, List.foldl_append]

theorem beBytes_succ (len n : Nat) :
    beBytes (len + 1) n = beBytes len (n / 256) ++ [Fin.ofNat 256 n] := by
  simp only [beBytes, List.range_succ, List.map_append, List.map_cons, List.map_nil]
  congr 1
  · refine List.map_congr_left fun i hi => ?_
    have hlt : i < len := List.mem_range.mp hi
    have hexp : len + 1 - 1 - i = len - 1 - i + 1 := by omega
    rw [hexp, Nat.pow_succ', ← Nat.div_div_eq_div_mul]
  · simp

theorem natOfBytes_beBytes (len n : Nat) : natOfBytes (beBytes len n) = n % 256 ^ len := by
  induction len generalizing n with
  | zero => simp [beBytes, natOfBytes, Nat.mod_one]
  | succ len ih =>
    rw [beBytes_succ, natOfBytes_append_singleton, ih, Nat.pow_succ', Nat.mod_mul]
    simp only [Fin.ofNat]
    omega

@[simp] theorem length_beBytes (len n : Nat) : (beBytes len n).length = len := by
  simp [beBytes]

/-! ## The group of the curve's order -/

theorem groupOrder_prime : groupOrder.Prime := by
  -- the large prime factors of the order less one, from the bottom of the certificate up
  have h29 : Nat.Prime 545358713 :=
    Primality.prime_of_generator 256 5 [2, 2, 2, 41, 59, 28181] (by norm_num)
      (by decide) (by decide) (by decide +kernel) (by decide +kernel)
  have h38 : Nat.Prime 297159362677 :=
    Primality.prime_of_generator 256 2 [2, 2, 3, 3, 11, 461, 1627771] (by norm_num)
      (by decide) (by decide) (by decide +kernel) (by decide +kernel)
  have h57 : Nat.Prime 107361793816595537 :=
    Primality.prime_of_generator 256 3 [2, 2, 2, 2, 16699, 85831, 4681609] (by norm_num)
      (by decide) (by decide) (by decide +kernel) (by decide +kernel)
  have h68 : Nat.Prime 174723607534414371449 :=
    Primality.prime_of_generator 256 3 [2, 2, 2, 17, 59, 4051, 120233, 44706919] (by norm_num)
      (by decide) (by decide) (by decide +kernel) (by decide +kernel)
  have h95 : Nat.Prime 29047611873442575647497758179 :=
    Primality.prime_of_generator 256 2 [2, 293, 305873, 545358713, 297159362677]
      (by simp [h29, h38]; norm_num)
      (by decide) (by decide) (by decide +kernel) (by decide +kernel)
  have h109 : Nat.Prime 341948486974166000522343609283189 :=
    Primality.prime_of_generator 256 2 [2, 2, 3, 3, 3, 109, 29047611873442575647497758179]
      (by simp [h95]; norm_num)
      (by decide) (by decide) (by decide +kernel) (by decide +kernel)
  exact Primality.prime_of_generator 256 7 [2, 2, 2, 2, 2, 2, 3, 149, 631, 107361793816595537,
      174723607534414371449, 341948486974166000522343609283189]
    (by simp [h57, h68, h109]; norm_num)
    (by decide) (by decide) (by decide +kernel) (by decide +kernel)

instance : Fact groupOrder.Prime := ⟨groupOrder_prime⟩

/-- The tag a sealed body outside the tables ends with. -/
def blankTag : Bytes := List.replicate 16 0

/-- The primitives over the group of the curve's order, a point given by its logarithm. Points,
digests and boxes of the tables have the values listed there; any other point is encoded by its
logarithm under a tag byte no curve encoding starts with, and any other box is the message itself
under a blank tag. -/
def External.ofGroup (t : Tables) : External where
  Point := ZMod groupOrder
  Scalar := ZMod groupOrder
  addPoint P Q := P + Q
  mulPoint k P := k * P
  baseMul k := k
  parsePubKey b :=
    match t.points.find? (fun p => p.2 = b) with
    | some p => some p.1
    | none => if b.length = 33 ∧ b.headD 0 = 5 then some (natOfBytes (b.drop 1)) else none
  serializeCompressed P :=
    if P = 0 then beBytes 33 (2 * 256 ^ 32)
    else match t.points.find? (fun p => p.1 = P.val) with
      | some p => p.2
      | none => 5 :: beBytes 32 P.val
  scalarOfUint32 v := v
  scalarAdd a b := a + b
  scalarMul a b := a * b
  scalarNegate a := -a
  scalarInverse a := a⁻¹
  scalarIsZero a := a = 0
  scalarBytes a := beBytes 32 a.val
  scalarSetBytes b := (natOfBytes b, groupOrder ≤ natOfBytes b)
  sha256 b := ((t.digests.find? (fun d => d.1 = b)).map Prod.snd).getD []
  gcmOpen key nonce body :=
    match t.opened.find? (fun o => o.1 = (key, nonce, body)) with
    | some o => some o.2
    | none =>
      if body.drop (body.length - 16) = blankTag then some (body.take (body.length - 16)) else none
  ecdsaVerify sig digest P := t.signed.contains (sig, digest, P.val)
  validDenom d := d = bytesOf "stake"
  validAccAddress a := t.accounts.contains a
  govAddr := bytesOf "cosmos10d07y265gmmuvt4z0w9aw880jnsr700j6zn9kn"

/-- The sealing that the boxes of the tables come from. -/
def Tables.gcmSeal (t : Tables) (key nonce msg : Bytes) : Bytes :=
  match t.opened.find? (fun o => o.1.1 = key ∧ o.1.2.1 = nonce ∧ o.2 = msg) with
  | some o => o.1.2.2
  | none => msg ++ blankTag

/-- The tables list nonzero points and boxes, each once, apart from the encodings and bodies of the
inputs they do not list. -/
structure Tables.WellFormed (t : Tables) : Prop where
  encodings : (t.points.map Prod.snd).Nodup
  points : ∀ p ∈ t.points, p.1 % groupOrder ≠ 0 ∧ p.2.headD 0 ≠ 5
    ∧ p.2 ≠ beBytes 33 (2 * 256 ^ 32)
  boxes : (t.opened.map Prod.fst).Nodup
  tags : ∀ o ∈ t.opened, o.1.2.2.drop (o.1.2.2.length - 16) ≠ blankTag

section OfGroup

variable {t : Tables}

instance : Field (External.ofGroup t).Scalar := inferInstanceAs (Field (ZMod groupOrder))

instance : AddCommGroup (External.ofGroup t).Point :=
  inferInstanceAs (AddCommGroup (ZMod groupOrder))

instance : Module (External.ofGroup t).Scalar (External.ofGroup t).Point :=
  inferInstanceAs (Module (ZMod groupOrder) (ZMod groupOrder))

instance : DecidableEq (External.ofGroup t).Point := inferInstanceAs (DecidableEq (ZMod groupOrder))

instance : DecidableEq (External.ofGroup t).Scalar := inferInstanceAs (DecidableEq (ZMod groupOrder))

/-- The base point has logarithm one. -/
def External.basePoint (t : Tables) : (External.ofGroup t).Point := (1 : ZMod groupOrder)

theorem find?_eq_self_of_nodup {α β : Type} [DecidableEq β] {f : α → β} {l : List α}
    (hnodup : (l.map f).Nodup) {x : α} (hx : x ∈ l) :
    l.find? (fun y => f y = f x) = some x := by
  cases hfind : l.find? (fun y => f y = f x) with
  | none => simpa using List.find?_eq_none.mp hfind x hx
  | some y =>
    have hy : f y = f x := by simpa using List.find?_some hfind
    rw [List.inj_on_of_nodup_map hnodup (List.mem_of_find?_eq_some hfind) hx hy]

theorem natOfBytes_groupOrder (a : ZMod groupOrder) : natOfBytes (beBytes 32 a.val) = a.val := by
  have hlt : a.val < 256 ^ 32 := lt_trans (ZMod.val_lt a) (by decide)
  rw [natOfBytes_beBytes, Nat.mod_eq_of_lt hlt]

theorem Tables.WellFormed.encodes (ht : t.WellFormed) (P : ZMod groupOrder) (hP : P ≠ 0) :
    (External.ofGroup t).parsePubKey ((External.ofGroup t).serializeCompressed P) = some P := by
  simp only [External.ofGroup, if_neg hP]
  cases hfind : t.points.find? (fun p => p.1 = P.val) with
  | some p =>
    have hlog : p.1 = P.val := by simpa using List.find?_some hfind
    simp only [find?_eq_self_of_nodup ht.encodings (List.mem_of_find?_eq_some hfind), hlog,
      ZMod.natCast_zmod_val]
  | none =>
    have hother : t.points.find? (fun p => p.2 = 5 :: beBytes 32 P.val) = none := by
      rw [List.find?_eq_none]
      intro p hp heq
      exact (ht.points p hp).2.1 (by simp [of_decide_eq_true heq])
    simp [hother, natOfBytes_groupOrder]

theorem Tables.WellFormed.identity (ht : t.WellFormed) :
    (External.ofGroup t).parsePubKey ((External.ofGroup t).serializeCompressed (0 : ZMod groupOrder))
      = none := by
  have hother : t.points.find? (fun p => p.2 = beBytes 33 (2 * 256 ^ 32)) = none := by
    rw [List.find?_eq_none]
    intro p hp heq
    exact (ht.points p hp).2.2 (of_decide_eq_true heq)
  have hhead : (beBytes 33 (2 * 256 ^ 32)).headD 0 ≠ 5 := by decide
  simp only [External.ofGroup, if_pos, hother, hhead, and_false, if_false]

theorem Tables.WellFormed.opens (ht : t.WellFormed) (key nonce msg : Bytes) :
    (External.ofGroup t).gcmOpen key nonce (t.gcmSeal key nonce msg) = some msg := by
  simp only [External.ofGroup, Tables.gcmSeal]
  cases hfind : t.opened.find? (fun o => o.1.1 = key ∧ o.1.2.1 = nonce ∧ o.2 = msg) with
  | some o =>
    obtain ⟨rfl, rfl, rfl⟩ : o.1.1 = key ∧ o.1.2.1 = nonce ∧ o.2 = msg := by
      simpa using List.find?_some hfind
    simp only [find?_eq_self_of_nodup ht.boxes (List.mem_of_find?_eq_some hfind)]
  | none =>
    have hlen : blankTag.length = 16 := rfl
    have hother : t.opened.find? (fun o => o.1 = (key, nonce, msg ++ blankTag)) = none := by
      rw [List.find?_eq_none]
      intro o ho heq
      apply ht.tags o ho
      rw [of_decide_eq_true heq]
      simp [hlen]
    simp [hother, hlen]

theorem External.scalarSetBytes_ofGroup (a : ZMod groupOrder) :
    (External.ofGroup t).scalarSetBytes ((External.ofGroup t).scalarBytes a) = (a, false) := by
  have hcanonical : ¬ groupOrder ≤ a.val := Nat.not_le.mpr (ZMod.val_lt a)
  simp only [External.ofGroup, natOfBytes_groupOrder, ZMod.natCast_zmod_val, hcanonical,
    decide_false]

theorem External.scalarIsZero_ofGroup (a : ZMod groupOrder) :
    (External.ofGroup t).scalarIsZero a = true ↔ a = 0 :=
  decide_eq_true_iff

theorem External.ofGroup_isCurve (ht : t.WellFormed) :
    (External.ofGroup t).IsCurve (External.basePoint t) where
  addPoint _ _ := rfl
  mulPoint _ _ := rfl
  baseMul k := (mul_one (k : ZMod groupOrder)).symm
  base_ne := one_ne_zero (α := ZMod groupOrder)
  scalarOfUint32 _ _ := rfl
  index_inj i j hi hj heq := by
    have hmod : i % groupOrder = j % groupOrder := (ZMod.natCast_eq_natCast_iff' i j _).mp heq
    have hsize : 2 ^ 32 < groupOrder := by decide
    rwa [Nat.mod_eq_of_lt (hi.trans hsize), Nat.mod_eq_of_lt (hj.trans hsize)] at hmod
  scalarAdd _ _ := rfl
  scalarMul _ _ := rfl
  scalarNegate _ := rfl
  scalarInverse _ := rfl
  scalarIsZero := External.scalarIsZero_ofGroup
  scalarBytes a := ⟨length_beBytes 32 _, External.scalarSetBytes_ofGroup a⟩
  encodes := ht.encodes
  identity := ht.identity

end OfGroup

end EncMempool
