import Limonata.Lib.Apportion
import Limonata.Lib.Machine
import Limonata.EncMempool.Types

/-!
# x/encmempool — stake-weighted secret sharing (`keeper/stakeweight.go`)

Each member of a transparent committee is allocated a block of Shamir evaluation points in
proportion to its stake, by largest-remainder apportionment of a fixed budget, and the
reconstruction threshold is a fraction of the whole point domain. The sum of the weights and the
products `weight * budget` are 256-bit integers; `none` is the panic of an operation that leaves
that range.
-/

namespace EncMempool

open Machine

variable {members ms out : List RoundMember} {acc total : Int} {sha256 : Bytes → Bytes}
  {W budget epoch pos : Nat} {m : RoundMember} {s : Seat} {seats : List Seat}

/-! ## Allocation -/

/-- The total stake over the positive weights. -/
def totalPositiveWeight : List RoundMember → Int → Option Int
  | [], acc => some acc
  | m :: ms, acc =>
    if 0 < m.weight then (add256 acc m.weight).bind (totalPositiveWeight ms)
    else totalPositiveWeight ms acc

/-- What the apportionment computes for one member: its position, the floor of its quota, the
remainder and the tie-break keys. -/
structure Seat where
  pos : Nat
  base : Nat
  rem : Int
  weight : Int
  tie : Bytes
  deriving DecidableEq

section Allocate

variable (sha256 : Bytes → Bytes)

/-- The epoch-rotating tie-break key for remainder seats. -/
def remainderTieKey (epoch : Nat) (operator : Bytes) : Bytes :=
  sha256 (bytesOf "encmempool/dkg/remainder-seat-tiebreak/v1" ++ be64 epoch ++ operator)

/-- The floor and the remainder of the quota of the member at `pos`. -/
def seatOf (total : Int) (budget epoch : Nat) (pos : Nat) (m : RoundMember) : Option Seat :=
  if 0 < m.weight then
    (mul256 m.weight budget).map fun num =>
      { pos := pos, base := (num / total).toNat, rem := num % total, weight := m.weight
        tie := remainderTieKey sha256 epoch m.operatorAddr }
  else
    some { pos := pos, base := 0, rem := 0, weight := m.weight
           tie := remainderTieKey sha256 epoch m.operatorAddr }

/-- The seats of the members from position `pos` on. -/
def seatsFrom (total : Int) (budget epoch : Nat) : Nat → List RoundMember → Option (List Seat)
  | _, [] => some []
  | pos, m :: ms =>
    (seatOf sha256 total budget epoch pos m).bind fun s =>
      (seatsFrom total budget epoch (pos + 1) ms).map (s :: ·)

end Allocate

/-- The order of the remainder seats: remainder descending, then stake descending, then the
tie-break key ascending. -/
def seatLess (a b : Seat) : Bool :=
  if a.rem ≠ b.rem then b.rem < a.rem
  else if a.weight ≠ b.weight then b.weight < a.weight
  else a.tie < b.tie

/-- The seats in the order in which the left-over points are handed out (a stable sort). -/
def seatOrder (seats : List Seat) : List Seat :=
  seats.insertionSort (fun a b => seatLess b a = false)

/-- The points of each member: its floor, plus one for the first `remainderSeats` of the order. -/
def seatCounts (budget : Nat) (seats : List Seat) : List Nat :=
  let assigned := (seats.map Seat.base).sum
  let winners := ((seatOrder seats).take (budget - assigned)).map Seat.pos
  seats.map (fun s => s.base + if s.pos ∈ winners then 1 else 0)

/-- Lay the counts out as contiguous blocks of evaluation points, in member order. -/
def layOutPoints : Nat → List RoundMember → List Nat → List RoundMember
  | next, m :: ms, a :: as =>
    { m with evalPoints := List.range' next a, weighted := true } :: layOutPoints (next + a) ms as
  | _, _, _ => []

/-- The unweighted fallback: one point per member, equal to its index. -/
def unweightedPoints (m : RoundMember) : RoundMember :=
  { m with evalPoints := [m.index], weighted := false }

/-- Assign each member a contiguous block of evaluation points proportional to its stake. -/
def allocateEvalPoints (sha256 : Bytes → Bytes) (members : List RoundMember) (budget epoch : Nat) :
    Option (List RoundMember) :=
  (totalPositiveWeight members 0).bind fun total =>
    if budget < 1 ∨ ¬ 0 < total then some (members.map unweightedPoints)
    else (seatsFrom sha256 total budget epoch 0 members).map fun seats =>
      layOutPoints 1 members (seatCounts budget seats)

/-! ## The reconstruction threshold -/

/-- The threshold of a round with these already allocated members. -/
def stakeThreshold (members : List RoundMember) (strict : Bool) : Nat :=
  let S := totalEvalPoints members
  if S < 1 then 1
  else if members.any RoundMember.weighted = false then
    wrap32 (min (2 * S / 3 + 1) S)
  else
    let tt := if strict then 2 * S / 3 + members.length else 2 * S / 3 + 1
    wrap32 (max (min tt S) 1)

/-! ## Concentration -/

/-- One member's move from `have` points in the table of minimal stakes: `none` is an unreachable
number of points. -/
def coalitionMove (S pts : Nat) (w : Int) (dp : List (Option Int)) (owned : Nat) :
    Option (List (Option Int)) :=
  match dp.getD owned none with
  | none => some dp
  | some stake =>
    let next := min (owned + pts) S
    (add256 stake w).map fun cand =>
      match dp.getD next none with
      | none => dp.set next (some cand)
      | some old => if cand < old then dp.set next (some cand) else dp

/-- Apply a member to the table, from the largest number of points down. -/
def coalitionMember (S pts : Nat) (w : Int) : List Nat → List (Option Int) →
    Option (List (Option Int))
  | [], dp => some dp
  | owned :: rest, dp => (coalitionMove S pts w dp owned).bind (coalitionMember S pts w rest)

/-- The table of minimal stakes over all coalitions. -/
def coalitionTable (S : Nat) : List RoundMember → List (Option Int) → Option (List (Option Int))
  | [], dp => some dp
  | m :: ms, dp =>
    let pts := m.ownedEvalPoints.length
    if pts = 0 then coalitionTable S ms dp
    else (coalitionMember S pts m.weight (List.range (S + 1)).reverse dp).bind (coalitionTable S ms)

/-- The sum of the weights of a committee. -/
def sumWeights : List RoundMember → Int → Option Int
  | [], acc => some acc
  | m :: ms, acc => (add256 acc m.weight).bind (sumWeights ms)

/-- Whether some entry of the table from `target` points on has at most two thirds of the stake. -/
def coalitionWithin (limit : Int) : List (Option Int) → Option Bool
  | [] => some false
  | none :: rest => coalitionWithin limit rest
  | some stake :: rest =>
    (mul256 stake 3).bind fun s3 => if s3 ≤ limit then some true else coalitionWithin limit rest

/-- Whether a coalition of at most two thirds of the stake owns `threshold` points. -/
def coalitionBelowTwoThirdsCanDecrypt (members : List RoundMember) (threshold : Nat) :
    Option Bool :=
  if threshold = 0 then some false
  else if members.any (fun m => !m.weighted) then some false
  else
    (sumWeights members 0).bind fun total =>
      let S := totalEvalPoints members
      if total ≤ 0 ∨ S = 0 then some false
      else if S < threshold then some false
      else
        (coalitionTable S members ((some 0) :: List.replicate S none)).bind fun dp =>
          (mul256 total 2).bind fun limit => coalitionWithin limit (dp.drop threshold)

/-- The single-operator clauses of the concentration guard; `none` defers to the coalition
clause. -/
def operatorBreach (threshold strandBar : Nat) : List RoundMember → Option Bool
  | [] => none
  | m :: ms =>
    if m.weighted = false then some false
    else
      let owned := m.ownedEvalPoints.length
      if threshold ≤ wrap32 owned then some true
      else if 0 < strandBar ∧ strandBar ≤ owned then some true
      else operatorBreach threshold strandBar ms

/-- The stake of a list of members. -/
def stake (members : List RoundMember) : Int := (members.map RoundMember.weight).sum

/-! ## The seats of a committee with non-negative weights -/

theorem totalPositiveWeight_eq (hnn : ∀ m ∈ members, 0 ≤ m.weight) (hacc : 0 ≤ acc)
    (hlt : acc + stake members < 2 ^ 256) :
    totalPositiveWeight members acc = some (acc + stake members) := by
  induction members generalizing acc with
  | nil => simp [totalPositiveWeight, stake]
  | cons m ms ih =>
    have hm : 0 ≤ m.weight := hnn m List.mem_cons_self
    have hms : ∀ x ∈ ms, 0 ≤ x.weight := fun x hx => hnn x (List.mem_cons_of_mem _ hx)
    have hsum : 0 ≤ stake ms := List.sum_nonneg (by simpa using hms)
    have hcons : stake (m :: ms) = m.weight + stake ms := by simp [stake]
    unfold totalPositiveWeight
    split_ifs with hpos
    · have hadd : add256 acc m.weight = some (acc + m.weight) :=
        add256_eq_some.mpr ⟨by omega, rfl⟩
      rw [hadd, Option.bind_some, ih hms (by omega) (by omega)]
      congr 1; omega
    · rw [ih hms hacc (by omega)]
      congr 1; omega

/-- The seat of a member when the product of its weight and the budget fits. -/
def seatFor (sha256 : Bytes → Bytes) (W budget epoch : Nat) (m : RoundMember) (pos : Nat) : Seat :=
  { pos := pos, base := Apportion.quota budget W m.weight.toNat
    rem := (Apportion.remainder budget W m.weight.toNat : Nat), weight := m.weight
    tie := remainderTieKey sha256 epoch m.operatorAddr }

theorem seatOf_eq (hnn : 0 ≤ m.weight) (hmul : m.weight * budget < 2 ^ 256) :
    seatOf sha256 W budget epoch pos m = some (seatFor sha256 W budget epoch m pos) := by
  obtain ⟨w, hw⟩ := Int.eq_ofNat_of_zero_le hnn
  unfold seatOf seatFor
  split_ifs with hpos
  · have hnum : mul256 m.weight budget = some (m.weight * budget) := by
      refine mul256_eq_some.mpr ⟨?_, rfl⟩
      have : 0 ≤ m.weight * (budget : Int) := Int.mul_nonneg hnn (Int.natCast_nonneg _)
      omega
    rw [hnum, Option.map_some, hw]
    simp only [Apportion.quota, Apportion.remainder, Int.toNat_natCast]
    norm_cast
  · have hzero : m.weight = 0 := by omega
    simp [Apportion.quota, Apportion.remainder, hzero]

theorem seatsFrom_eq (hnn : ∀ m ∈ members, 0 ≤ m.weight)
    (hmul : ∀ m ∈ members, m.weight * budget < 2 ^ 256) (pos : Nat) :
    seatsFrom sha256 W budget epoch pos members
      = some ((members.zipIdx pos).map (fun p => seatFor sha256 W budget epoch p.1 p.2)) := by
  induction members generalizing pos with
  | nil => rfl
  | cons m ms ih =>
    have hseat : seatOf sha256 W budget epoch pos m = some (seatFor sha256 W budget epoch m pos) :=
      seatOf_eq (hnn m List.mem_cons_self) (hmul m List.mem_cons_self)
    have htail := ih (fun x hx => hnn x (List.mem_cons_of_mem _ hx))
      (fun x hx => hmul x (List.mem_cons_of_mem _ hx)) (pos + 1)
    rw [seatsFrom, hseat, Option.bind_some, htail]
    simp [List.zipIdx_cons]

section

variable (sha256 : Bytes → Bytes) (W budget epoch : Nat) (members : List RoundMember)

/-- The seats of a whole committee. -/
def committeeSeats : List Seat :=
  members.zipIdx.map (fun p => seatFor sha256 W budget epoch p.1 p.2)

theorem committeeSeats_map_pos :
    (committeeSeats sha256 W budget epoch members).map Seat.pos = List.range members.length := by
  unfold committeeSeats
  rw [List.map_map, List.range_eq_range']
  exact List.zipIdx_map_snd 0 members

theorem committeeSeats_map_weight :
    (committeeSeats sha256 W budget epoch members).map Seat.weight
      = members.map RoundMember.weight := by
  unfold committeeSeats
  rw [List.map_map]
  conv_rhs => rw [← List.zipIdx_map_fst 0 members, List.map_map]
  rfl

end

theorem mem_committeeSeats (hs : s ∈ committeeSeats sha256 W budget epoch members) :
    s.base = Apportion.quota budget W s.weight.toNat
      ∧ s.rem = (Apportion.remainder budget W s.weight.toNat : Nat)
      ∧ ∃ m ∈ members, m.weight = s.weight := by
  obtain ⟨⟨m, i⟩, hmem, rfl⟩ := List.mem_map.mp hs
  exact ⟨rfl, rfl, m, List.mem_of_getElem? (List.mem_zipIdx_iff_getElem?.mp hmem), rfl⟩

/-! ## The hand-out order -/

/-- The hand-out order compares seats by a key in a linear order, so it is total and transitive. -/
def seatKey (s : Seat) : ℤᵒᵈ ×ₗ ℤᵒᵈ ×ₗ Bytes :=
  toLex (OrderDual.toDual s.rem, toLex (OrderDual.toDual s.weight, s.tie))

theorem seatLess_iff (a b : Seat) : seatLess a b = true ↔ seatKey a < seatKey b := by
  unfold seatLess seatKey
  simp only [Prod.Lex.toLex_lt_toLex, OrderDual.toDual_lt_toDual, OrderDual.toDual_inj]
  split_ifs with hr hw <;> grind

theorem seatLess_eq_false_iff (a b : Seat) : seatLess b a = false ↔ seatKey a ≤ seatKey b := by
  rw [← not_lt, ← seatLess_iff, Bool.not_eq_true]

theorem seatOrder_perm (seats : List Seat) : (seatOrder seats).Perm seats :=
  List.perm_insertionSort _ _

theorem seatOrder_keys_pairwise (seats : List Seat) :
    ((seatOrder seats).map seatKey).Pairwise (· ≤ ·) := by
  rw [List.pairwise_map]
  have htotal : Std.Total (fun a b : Seat => seatLess b a = false) :=
    ⟨fun a b => by simp only [seatLess_eq_false_iff]; exact le_total _ _⟩
  have htrans : IsTrans Seat (fun a b => seatLess b a = false) :=
    ⟨fun a b c => by simp only [seatLess_eq_false_iff]; exact le_trans⟩
  exact (List.pairwise_insertionSort _ _).imp fun h => (seatLess_eq_false_iff _ _).mp h

theorem seatOrder_pairwise (seats : List Seat) :
    (seatOrder seats).Pairwise (fun a b => b.rem ≤ a.rem) := by
  refine (List.pairwise_map.mp (seatOrder_keys_pairwise seats)).imp fun {a b} h => ?_
  obtain hlt | ⟨heq, -⟩ := Prod.Lex.toLex_le_toLex.mp h
  · exact (OrderDual.toDual_lt_toDual.mp hlt).le
  · exact (OrderDual.toDual_inj.mp heq).ge

/-! ## Counts and blocks -/

section Counts

variable {sha256 : Bytes → Bytes} {W budget epoch : Nat} {members : List RoundMember}
variable {next : Nat} {ms : List RoundMember} {as : List Nat}

/-- The stake of a seat as a natural number. -/
abbrev seatWeight (s : Seat) : Nat := s.weight.toNat

/-- The points of a seat: the apportionment of the budget over the committee's seats. -/
def seatAlloc (budget W : Nat) (seats : List Seat) (s : Seat) : Nat :=
  Apportion.alloc budget W seatWeight
    ((seatOrder seats).take (Apportion.leftover budget W seatWeight seats)) s

theorem committeeSeats_nodup (sha256 : Bytes → Bytes) (W budget epoch : Nat)
    (members : List RoundMember) : (committeeSeats sha256 W budget epoch members).Nodup := by
  have hpos := committeeSeats_map_pos sha256 W budget epoch members
  exact List.Nodup.of_map Seat.pos (hpos ▸ List.nodup_range)

theorem committeeSeats_desc :
    (seatOrder (committeeSeats sha256 W budget epoch members)).Pairwise fun a b =>
      Apportion.remainder budget W (seatWeight b) ≤ Apportion.remainder budget W (seatWeight a) := by
  refine List.Pairwise.imp_of_mem ?_ (seatOrder_pairwise _)
  intro a b ha hb hle
  rw [(mem_committeeSeats ((seatOrder_perm _).mem_iff.mp ha)).2.1,
    (mem_committeeSeats ((seatOrder_perm _).mem_iff.mp hb)).2.1] at hle
  exact_mod_cast hle

theorem seatCounts_eq :
    seatCounts budget (committeeSeats sha256 W budget epoch members)
      = (committeeSeats sha256 W budget epoch members).map
          (seatAlloc budget W (committeeSeats sha256 W budget epoch members)) := by
  set seats := committeeSeats sha256 W budget epoch members with hseats
  have hbase : seats.map Seat.base
      = seats.map (fun s => Apportion.quota budget W (seatWeight s)) :=
    List.map_congr_left (fun s hs => (mem_committeeSeats hs).1)
  unfold seatCounts seatAlloc Apportion.alloc Apportion.leftover
  rw [hbase]
  refine List.map_congr_left (fun s hs => ?_)
  rw [(mem_committeeSeats hs).1]
  congr 2
  -- positions are distinct, so a seat is among the winners exactly when its position is
  have hinj : ∀ a ∈ seats, ∀ b ∈ seats, a.pos = b.pos → a = b :=
    List.inj_on_of_nodup_map (committeeSeats_map_pos sha256 W budget epoch members ▸
      List.nodup_range)
  refine propext ⟨fun h => ?_, fun h => List.mem_map_of_mem h⟩
  obtain ⟨b, hb, hpos⟩ := List.mem_map.mp h
  have hbs : b ∈ seats := (seatOrder_perm seats).mem_iff.mp (List.mem_of_mem_take hb)
  exact hinj b hbs s hs hpos ▸ hb

theorem layOutPoints_evalPoints (hlen : ms.length = as.length) :
    (layOutPoints next ms as).flatMap RoundMember.evalPoints = List.range' next as.sum := by
  induction as generalizing next ms with
  | nil => cases ms <;> simp_all [layOutPoints]
  | cons a as ih =>
    cases ms with
    | nil => simp at hlen
    | cons m ms =>
      rw [layOutPoints, List.flatMap_cons, ih (by simpa using hlen), List.sum_cons,
        List.range'_append_1]

theorem layOutPoints_map (hlen : ms.length = as.length) :
    (layOutPoints next ms as).map (fun m => (m.plain, m.evalPoints.length))
      = (ms.map RoundMember.plain).zip as := by
  induction as generalizing next ms with
  | nil => cases ms <;> simp_all [layOutPoints]
  | cons a as ih =>
    cases ms with
    | nil => simp at hlen
    | cons m ms =>
      rw [layOutPoints, List.map_cons, ih (by simpa using hlen)]
      simp [RoundMember.plain]

theorem layOutPoints_plain (hlen : ms.length = as.length) :
    (layOutPoints next ms as).map RoundMember.plain = ms.map RoundMember.plain := by
  have hmap := congrArg (List.map Prod.fst) (@layOutPoints_map next ms as hlen)
  rw [List.map_map, List.map_fst_zip (by rw [List.length_map, hlen])] at hmap
  exact hmap

theorem weighted_of_mem_layOutPoints {m : RoundMember} (hm : m ∈ layOutPoints next ms as) :
    m.weighted = true := by
  induction as generalizing next ms with
  | nil => cases ms <;> simp [layOutPoints] at hm
  | cons a as ih =>
    cases ms with
    | nil => simp [layOutPoints] at hm
    | cons x ms =>
      rw [layOutPoints, List.mem_cons] at hm
      rcases hm with rfl | hm
      · rfl
      · exact ih hm

end Counts

theorem length_seatsFrom (h : seatsFrom sha256 total budget epoch pos ms = some seats) :
    seats.length = ms.length := by
  induction ms generalizing pos seats with
  | nil =>
    cases h
    rfl
  | cons m ms ih =>
    obtain ⟨s, -, h⟩ := Option.bind_eq_some_iff.mp h
    obtain ⟨rest, hrest, rfl⟩ := Option.map_eq_some_iff.mp h
    rw [List.length_cons, List.length_cons, ih hrest]

/-- An allocation changes nothing about a committee but who owns which point. -/
theorem allocateEvalPoints_plain (h : allocateEvalPoints sha256 ms budget epoch = some out) :
    out.map RoundMember.plain = ms.map RoundMember.plain := by
  obtain ⟨total, -, h⟩ := Option.bind_eq_some_iff.mp h
  split_ifs at h with hflat
  · cases h
    rw [List.map_map]
    rfl
  · obtain ⟨seats, hseats, rfl⟩ := Option.map_eq_some_iff.mp h
    refine layOutPoints_plain ?_
    rw [seatCounts, List.length_map, length_seatsFrom hseats]

theorem totalEvalPoints_of_weighted (hw : ∀ m ∈ ms, m.weighted = true) :
    totalEvalPoints ms = (ms.map (fun m => m.evalPoints.length)).sum := by
  unfold totalEvalPoints
  congr 1
  refine List.map_congr_left (fun m hm => ?_)
  rw [RoundMember.ownedEvalPoints_of_weighted (hw m hm)]

/-- On a weighted committee whose strict threshold lies below the domain size, the clamp does not
bite and the strict threshold is the one computed, reduced to 32 bits. -/
theorem stakeThreshold_strict (hne : ms ≠ []) (hw : ∀ m ∈ ms, m.weighted = true)
    (hlt : 2 * totalEvalPoints ms / 3 + ms.length < totalEvalPoints ms) :
    stakeThreshold ms true = wrap32 (2 * totalEvalPoints ms / 3 + ms.length) := by
  have hany : ms.any RoundMember.weighted = true := by
    obtain ⟨m, hm⟩ := List.exists_mem_of_ne_nil _ hne
    exact List.any_eq_true.mpr ⟨m, hm, hw m hm⟩
  have hlen : 0 < ms.length := List.length_pos_iff.mpr hne
  unfold stakeThreshold
  simp only [hany, if_true]
  rw [if_neg (by omega), if_neg (by simp), show max (min (2 * totalEvalPoints ms / 3 + ms.length)
    (totalEvalPoints ms)) 1 = 2 * totalEvalPoints ms / 3 + ms.length by omega]

/-! ## What an allocation hands out, whatever the signs of the weights -/

theorem totalPositiveWeight_some (h : totalPositiveWeight members acc = some total) :
    total = acc + ((members.map fun m => m.weight.toNat).sum : Nat) := by
  induction members generalizing acc with
  | nil =>
    cases h
    simp
  | cons m ms ih =>
    rw [totalPositiveWeight] at h
    rw [List.map_cons, List.sum_cons]
    split_ifs at h with hpos
    · obtain ⟨acc', hadd, h⟩ := Option.bind_eq_some_iff.mp h
      obtain ⟨-, rfl⟩ := add256_eq_some.mp hadd
      have := ih h
      omega
    · have := ih h
      omega

theorem seatOf_some (h : seatOf sha256 W budget epoch pos m = some s) :
    s = seatFor sha256 W budget epoch m pos := by
  unfold seatOf at h
  split_ifs at h with hpos
  · obtain ⟨num, hnum, rfl⟩ := Option.map_eq_some_iff.mp h
    obtain ⟨-, rfl⟩ := mul256_eq_some.mp hnum
    obtain ⟨w, hw⟩ := Int.eq_ofNat_of_zero_le hpos.le
    unfold seatFor
    rw [hw]
    simp only [Apportion.quota, Apportion.remainder, Int.toNat_natCast]
    norm_cast
  · cases h
    have hzero : m.weight.toNat = 0 := by omega
    simp [seatFor, Apportion.quota, Apportion.remainder, hzero]

theorem seatsFrom_some (h : seatsFrom sha256 W budget epoch pos members = some seats) :
    seats = (members.zipIdx pos).map fun p => seatFor sha256 W budget epoch p.1 p.2 := by
  induction members generalizing pos seats with
  | nil =>
    cases h
    rfl
  | cons m ms ih =>
    obtain ⟨s, hs, h⟩ := Option.bind_eq_some_iff.mp h
    obtain ⟨rest, hrest, rfl⟩ := Option.map_eq_some_iff.mp h
    rw [seatOf_some hs, ih hrest, List.zipIdx_cons, List.map_cons]

/-- **A weighted allocation hands out the whole budget**, and marks every member. -/
theorem allocateEvalPoints_weighted (h : allocateEvalPoints sha256 members budget epoch = some out)
    (hw : out.any RoundMember.weighted = true) :
    (∀ m ∈ out, m.weighted = true) ∧ totalEvalPoints out = budget := by
  obtain ⟨total, htotal, h⟩ := Option.bind_eq_some_iff.mp h
  split_ifs at h with hflat
  · cases h
    simp [unweightedPoints] at hw
  · obtain ⟨hbudget, hpos⟩ := not_or.mp hflat
    obtain ⟨seats, hseats, rfl⟩ := Option.map_eq_some_iff.mp h
    have hW := totalPositiveWeight_some htotal
    rw [zero_add] at hW
    rw [hW] at hseats hpos
    set W := (members.map fun m => m.weight.toNat).sum with hWdef
    have hcommittee : seats = committeeSeats sha256 W budget epoch members := seatsFrom_some hseats
    have hsum : Apportion.total seatWeight (committeeSeats sha256 W budget epoch members) = W := by
      have hmap : (committeeSeats sha256 W budget epoch members).map seatWeight
          = members.map fun m => m.weight.toNat := by
        rw [show seatWeight = Int.toNat ∘ Seat.weight from rfl, ← List.map_map,
          committeeSeats_map_weight, List.map_map]
        rfl
      rw [Apportion.total, hmap]
    have hall : ∀ m ∈ layOutPoints 1 members (seatCounts budget seats), m.weighted = true :=
      fun m hm => weighted_of_mem_layOutPoints hm
    refine ⟨hall, ?_⟩
    have hlen : members.length = (seatCounts budget seats).length := by
      rw [hcommittee]
      simp [seatCounts, committeeSeats]
    have hrange : (layOutPoints 1 members _).flatMap RoundMember.evalPoints = _ :=
      layOutPoints_evalPoints hlen
    have hpts := congrArg List.length hrange
    rw [List.length_range', List.length_flatMap] at hpts
    rw [totalEvalPoints_of_weighted hall]
    refine hpts.trans ?_
    rw [hcommittee, seatCounts_eq]
    exact Apportion.sum_alloc hsum (by omega) (seatOrder_perm _) (committeeSeats_nodup _ _ _ _ _)

theorem stakeThreshold_strict_lt (hw : ∀ m ∈ members, m.weighted = true) (hne : members ≠ [])
    (hpoints : 8 * members.length ≤ totalEvalPoints members) :
    stakeThreshold members true < totalEvalPoints members := by
  have hlen := List.length_pos_iff.mpr hne
  have hlt : 2 * totalEvalPoints members / 3 + members.length < totalEvalPoints members := by omega
  rw [stakeThreshold_strict hne hw hlt]
  exact lt_of_le_of_lt (wrap32_le _) hlt

/-! ## The confidentiality theorem -/

section Confidentiality

variable (sha256 : Bytes → Bytes) {members : List RoundMember} {budget : Nat} (epoch : Nat)

/-- A committee whose weights are non-negative, not all zero, and whose weight products fit. -/
structure Apportionable (members : List RoundMember) (budget : Nat) : Prop where
  nonneg : ∀ m ∈ members, 0 ≤ m.weight
  stake_pos : 0 < stake members
  stake_fits : stake members < 2 ^ 256
  products_fit : ∀ m ∈ members, m.weight * budget < 2 ^ 256
  budget_pos : 0 < budget

theorem sum_map_toNat {α : Type} {f : α → Int} {xs : List α} (hnn : ∀ x ∈ xs, 0 ≤ f x) :
    (xs.map (fun x => (f x).toNat)).sum = (xs.map f).sum.toNat := by
  induction xs with
  | nil => rfl
  | cons x xs ih =>
    have hx : 0 ≤ f x := hnn x List.mem_cons_self
    have hxs : ∀ y ∈ xs, 0 ≤ f y := fun y hy => hnn y (List.mem_cons_of_mem _ hy)
    have hsum : 0 ≤ (xs.map f).sum := List.sum_nonneg (by simpa using hxs)
    simp only [List.map_cons, List.sum_cons, ih hxs]
    omega

/-- The committee after a weighted allocation. -/
def weightedAllocation (members : List RoundMember) (budget : Nat) : List RoundMember :=
  layOutPoints 1 members
    (seatCounts budget (committeeSeats sha256 (stake members).toNat budget epoch members))

theorem allocateEvalPoints_eq (h : Apportionable members budget) :
    allocateEvalPoints sha256 members budget epoch
      = some (weightedAllocation sha256 epoch members budget) := by
  have htotal := totalPositiveWeight_eq h.nonneg (le_refl 0) (by have := h.stake_fits; omega)
  have hW : (((stake members).toNat : Nat) : Int) = stake members :=
    Int.toNat_of_nonneg h.stake_pos.le
  have hbudget := h.budget_pos
  have hpos := h.stake_pos
  unfold allocateEvalPoints weightedAllocation
  rw [htotal, Option.bind_some, zero_add, if_neg (by omega), ← hW,
    seatsFrom_eq h.nonneg h.products_fit 0]
  rw [hW]
  rfl

theorem total_committeeSeats (h : Apportionable members budget) :
    Apportion.total seatWeight
        (committeeSeats sha256 (stake members).toNat budget epoch members)
      = (stake members).toNat := by
  have hmap : (committeeSeats sha256 (stake members).toNat budget epoch members).map seatWeight
      = members.map (fun m => m.weight.toNat) := by
    rw [show seatWeight = Int.toNat ∘ Seat.weight from rfl, ← List.map_map,
      committeeSeats_map_weight, List.map_map]
    rfl
  have hsum := sum_map_toNat (f := RoundMember.weight) h.nonneg
  unfold Apportion.total
  rw [hmap, hsum]
  rfl

theorem weightedAllocation_plain :
    (weightedAllocation sha256 epoch members budget).map (fun m => (m.plain, m.evalPoints.length))
      = members.zipIdx.map (fun p => (p.1.plain, seatAlloc budget (stake members).toNat
          (committeeSeats sha256 (stake members).toNat budget epoch members)
          (seatFor sha256 (stake members).toNat budget epoch p.1 p.2))) := by
  unfold weightedAllocation
  rw [layOutPoints_map (by simp [seatCounts, committeeSeats]), seatCounts_eq, committeeSeats,
    List.map_map]
  conv_lhs => arg 1; rw [← List.zipIdx_map_fst 0 members, List.map_map]
  exact List.zip_map'

theorem weightedAllocation_map :
    (weightedAllocation sha256 epoch members budget).map
        (fun m => (m.weight, m.evalPoints.length))
      = (committeeSeats sha256 (stake members).toNat budget epoch members).map (fun s =>
          (s.weight, seatAlloc budget (stake members).toNat
            (committeeSeats sha256 (stake members).toNat budget epoch members) s)) := by
  have hmap := congrArg (List.map (Prod.map RoundMember.weight id))
    (@weightedAllocation_plain sha256 members budget epoch)
  rw [List.map_map, List.map_map] at hmap
  conv_rhs => rw [committeeSeats, List.map_map]
  exact hmap

theorem weightedAllocation_evalPoints (h : Apportionable members budget) :
    (weightedAllocation sha256 epoch members budget).flatMap RoundMember.evalPoints
      = List.range' 1 budget := by
  have hpos : 0 < (stake members).toNat := by have := h.stake_pos; omega
  unfold weightedAllocation
  rw [layOutPoints_evalPoints (by simp [seatCounts, committeeSeats]), seatCounts_eq]
  congr 1
  exact Apportion.sum_alloc (total_committeeSeats sha256 epoch h) hpos (seatOrder_perm _)
    (committeeSeats_nodup _ _ _ _ _)

theorem weighted_of_mem_weightedAllocation {m : RoundMember}
    (hm : m ∈ weightedAllocation sha256 epoch members budget) : m.weighted = true :=
  weighted_of_mem_layOutPoints hm

theorem length_weightedAllocation :
    (weightedAllocation sha256 epoch members budget).length = members.length := by
  have hlen := congrArg List.length
    (@weightedAllocation_map sha256 members budget epoch)
  simpa [committeeSeats] using hlen

theorem totalEvalPoints_weightedAllocation (h : Apportionable members budget) :
    totalEvalPoints (weightedAllocation sha256 epoch members budget) = budget := by
  have hpts := congrArg List.length (weightedAllocation_evalPoints sha256 epoch h)
  rw [List.length_range', List.length_flatMap] at hpts
  rw [totalEvalPoints_of_weighted (fun m hm => weighted_of_mem_weightedAllocation _ _ hm)]
  exact hpts

/-- A left-over point only goes to a positive remainder, so zero stake owns nothing. -/
theorem weightedAllocation_zero_weight (h : Apportionable members budget) {m : RoundMember}
    (hm : m ∈ weightedAllocation sha256 epoch members budget) (hzero : m.weight = 0) :
    m.evalPoints = [] := by
  have hmem := List.mem_map_of_mem (f := fun m : RoundMember => (m.weight, m.evalPoints.length)) hm
  rw [weightedAllocation_map] at hmem
  obtain ⟨s, hs, heq⟩ := List.mem_map.mp hmem
  obtain ⟨hweight, hcount⟩ := Prod.mk.inj heq
  have hsw : seatWeight s = 0 := by rw [seatWeight, hweight, hzero]; rfl
  have hpos : 0 < (stake members).toNat := by have := h.stake_pos; omega
  set seats := committeeSeats sha256 (stake members).toNat budget epoch members with hseats
  have hloser : s ∉ (seatOrder seats).take
      (Apportion.leftover budget (stake members).toNat seatWeight seats) := by
    intro hwin
    have hrem := Apportion.rem_pos_of_winner (total_committeeSeats sha256 epoch h) hpos
      (seatOrder_perm seats) committeeSeats_desc hwin
    rw [hsw] at hrem
    simp [Apportion.remainder] at hrem
  rw [seatAlloc, Apportion.alloc, if_neg hloser, hsw] at hcount
  exact List.length_eq_zero_iff.mp (by simpa [Apportion.quota] using hcount.symm)

theorem weightedAllocation_coalition (h : Apportionable members budget) {C : List RoundMember}
    (hsub : C.Sublist (weightedAllocation sha256 epoch members budget))
    (hC : 3 * stake C ≤ 2 * stake members) :
    totalEvalPoints C < 2 * budget / 3 + members.length := by
  have hpos : 0 < (stake members).toNat := by have := h.stake_pos; omega
  have hmap := hsub.map (fun m : RoundMember => (m.weight, m.evalPoints.length))
  rw [weightedAllocation_map] at hmap
  set seats := committeeSeats sha256 (stake members).toNat budget epoch members with hseats
  -- the coalition is the image of a coalition of seats
  obtain ⟨D, hD, hCD⟩ := List.sublist_map_iff.mp hmap
  have hweights : C.map RoundMember.weight = D.map Seat.weight := by
    have := congrArg (List.map Prod.fst) hCD
    rw [List.map_map, List.map_map] at this
    exact this
  have hcounts : C.map (fun m => m.evalPoints.length)
      = D.map (seatAlloc budget (stake members).toNat seats) := by
    have := congrArg (List.map Prod.snd) hCD
    rw [List.map_map, List.map_map] at this
    exact this
  have hnn : ∀ s ∈ D, 0 ≤ s.weight := by
    intro s hs
    obtain ⟨m, hm, hw⟩ := (mem_committeeSeats (hD.subset hs)).2.2
    exact hw ▸ h.nonneg m hm
  have hstake : (Apportion.total seatWeight D : Int) = stake C := by
    have hsumnn : 0 ≤ (D.map Seat.weight).sum := List.sum_nonneg (by simpa using hnn)
    rw [Apportion.total, sum_map_toNat hnn, stake, hweights, Int.toNat_of_nonneg hsumnn]
  rw [totalEvalPoints_of_weighted
    (fun m hm => weighted_of_mem_weightedAllocation _ _ (hsub.subset hm)), hcounts]
  have hbound := Apportion.coalition_alloc_lt (S := budget) (k := 2) (m := 3)
    (total_committeeSeats sha256 epoch h) hpos (seatOrder_perm seats)
    (committeeSeats_nodup _ _ _ _ _) hD (by omega) (by have := h.stake_pos; omega)
  have hlen : seats.length = members.length := by simp [hseats, committeeSeats]
  rw [hlen] at hbound
  exact hbound

/-- **Stake-weighted confidentiality.** With the strict threshold, the points of a committee are
exactly `1..S` in list order, the threshold is `⌊2S/3⌋ + n` and below `S`, and a coalition of at
most two thirds of the stake owns fewer points than the threshold, as long as no sum or product of
the apportionment leaves 256 bits and the threshold itself fits 32 bits. -/
theorem strictThreshold_confidential
    (hne : members ≠ []) (hnn : ∀ m ∈ members, 0 ≤ m.weight) (hpos : 0 < stake members)
    (hbudget : 8 * members.length ≤ budget)
    (hstake : stake members < 2 ^ 256) (hmul : ∀ m ∈ members, m.weight * budget < 2 ^ 256)
    (hthreshold : 2 * budget / 3 + members.length < 2 ^ 32) :
    ∃ out, allocateEvalPoints sha256 members budget epoch = some out
      ∧ out.map RoundMember.weight = members.map RoundMember.weight
      ∧ out.flatMap RoundMember.evalPoints = List.range' 1 budget
      ∧ (∀ m ∈ out, m.ownedEvalPoints = m.evalPoints ∧ (m.weight = 0 → m.evalPoints = []))
      ∧ stakeThreshold out true = 2 * budget / 3 + members.length
      ∧ stakeThreshold out true < budget
      ∧ ∀ C : List RoundMember, C.Sublist out → 3 * stake C ≤ 2 * stake members →
          totalEvalPoints C < stakeThreshold out true := by
  have hlen : 0 < members.length := List.length_pos_iff.mpr hne
  have h : Apportionable members budget := ⟨hnn, hpos, hstake, hmul, by omega⟩
  set out := weightedAllocation sha256 epoch members budget with hout
  have hw : ∀ m ∈ out, m.weighted = true := fun m hm => weighted_of_mem_weightedAllocation _ _ hm
  have hS : totalEvalPoints out = budget := totalEvalPoints_weightedAllocation sha256 epoch h
  have hn : out.length = members.length := length_weightedAllocation sha256 epoch
  have ht : stakeThreshold out true = 2 * budget / 3 + members.length := by
    have hout_ne : out ≠ [] := List.length_pos_iff.mp (by omega)
    rw [stakeThreshold_strict hout_ne hw (by omega), hS, hn, wrap32_of_lt hthreshold]
  refine ⟨out, allocateEvalPoints_eq sha256 epoch h, ?_, ?_, ?_, ht, by omega, ?_⟩
  · have hmap := congrArg (List.map Prod.fst)
      (@weightedAllocation_map sha256 members budget epoch)
    rw [List.map_map, List.map_map] at hmap
    exact hmap.trans (committeeSeats_map_weight _ _ _ _ _)
  · exact weightedAllocation_evalPoints sha256 epoch h
  · intro m hm
    exact ⟨RoundMember.ownedEvalPoints_of_weighted (hw m hm),
      weightedAllocation_zero_weight sha256 epoch h hm⟩
  · intro C hsub hC
    rw [ht]
    exact weightedAllocation_coalition sha256 epoch h hsub hC

end Confidentiality

/-- A member that has only an index, an operator and a stake. -/
def plainMember (index : Nat) (operator : Bytes) (weight : Int) : RoundMember :=
  { index := index, operatorAddr := operator, accountAddr := [], encPubKey := [], weight := weight
    evalPoints := [], weighted := false }

/-- The hypotheses hold of a three-member committee with a zero-stake member. -/
theorem strictThreshold_confidential_three :
    ∃ out, allocateEvalPoints id [plainMember 1 [1] 5, plainMember 2 [2] 0, plainMember 3 [3] 7]
        24 3 = some out
      ∧ stakeThreshold out true = 19 := by
  obtain ⟨out, hout, -, -, -, ht, -, -⟩ := @strictThreshold_confidential id
    [plainMember 1 [1] 5, plainMember 2 [2] 0, plainMember 3 [3] 7] 24 3
    (by decide) (by decide) (by decide) (by decide) (by decide) (by decide) (by decide)
  exact ⟨out, hout, ht⟩

/-- **Both range conditions are needed.** A budget of `3 * 2^31` truncates the threshold of a
one-member committee to 1, and a weight of `2^255` makes the product with the smallest admissible
budget panic. -/
theorem strictThreshold_out_of_range :
    (∃ out, allocateEvalPoints id [plainMember 1 [1] 1] 6442450944 1 = some out
        ∧ stakeThreshold out true = 1)
      ∧ allocateEvalPoints id [plainMember 1 [1] (2 ^ 255)] 8 1 = none := by
  constructor
  · have h : Apportionable [plainMember 1 [1] 1] 6442450944 :=
      ⟨by decide, by decide, by decide, by decide, by decide⟩
    have hS := totalEvalPoints_weightedAllocation id 1 h
    have hn := @length_weightedAllocation id [plainMember 1 [1] 1] 6442450944 1
    have hne : weightedAllocation id 1 [plainMember 1 [1] 1] 6442450944 ≠ [] :=
      List.length_pos_iff.mp (by rw [hn]; decide)
    refine ⟨_, allocateEvalPoints_eq id 1 h, ?_⟩
    rw [stakeThreshold_strict hne (fun m hm => weighted_of_mem_weightedAllocation _ _ hm)
      (by rw [hS, hn]; decide), hS, hn]
    decide
  · decide +kernel

/-! ## Quota, monotonicity and the order of the members -/

theorem totalPositiveWeight_lt (h : totalPositiveWeight members acc = some total)
    (hacc : acc < 2 ^ 256) : total < 2 ^ 256 := by
  induction members generalizing acc with
  | nil =>
    cases h
    exact hacc
  | cons m ms ih =>
    rw [totalPositiveWeight] at h
    split_ifs at h with hpos
    · obtain ⟨acc', hadd, h⟩ := Option.bind_eq_some_iff.mp h
      obtain ⟨hlt, rfl⟩ := add256_eq_some.mp hadd
      exact ih h (by omega)
    · exact ih h hacc

theorem seatsFrom_fits (h : seatsFrom sha256 total budget epoch pos ms = some seats) :
    ∀ m ∈ ms, m.weight * budget < 2 ^ 256 := by
  induction ms generalizing pos seats with
  | nil => exact nofun
  | cons m ms ih =>
    obtain ⟨seat, hseat, h⟩ := Option.bind_eq_some_iff.mp h
    obtain ⟨rest, hrest, -⟩ := Option.map_eq_some_iff.mp h
    refine List.forall_mem_cons.mpr ⟨?_, ih hrest⟩
    unfold seatOf at hseat
    split_ifs at hseat with hpos
    · obtain ⟨num, hnum, -⟩ := Option.map_eq_some_iff.mp hseat
      have hfits := (mul256_eq_some.mp hnum).1
      omega
    · have hneg : m.weight * budget ≤ 0 :=
        mul_nonpos_of_nonpos_of_nonneg (Int.not_lt.mp hpos) (Int.natCast_nonneg budget)
      exact lt_of_le_of_lt hneg (by norm_num)

theorem apportionable_of_seats (hnn : ∀ m ∈ ms, 0 ≤ m.weight)
    (htotal : totalPositiveWeight ms 0 = some total) (hpos : 0 < total) (hbudget : 1 ≤ budget)
    (hseats : seatsFrom sha256 total budget epoch pos ms = some seats) :
    Apportionable ms budget := by
  have hstake : total = stake ms := by
    have hstakenn : 0 ≤ stake ms := List.sum_nonneg (by simpa using hnn)
    have hsum := totalPositiveWeight_some htotal
    rw [sum_map_toNat (f := RoundMember.weight) hnn, zero_add] at hsum
    exact hsum.trans (Int.toNat_of_nonneg hstakenn)
  exact ⟨hnn, hstake ▸ hpos, hstake ▸ totalPositiveWeight_lt htotal (by norm_num),
    seatsFrom_fits hseats, hbudget⟩

section Quota

variable {sha256 : Bytes → Bytes} {members : List RoundMember} {budget epoch : Nat}
variable {m m' : RoundMember} {s a b : Seat} {W : Nat}

/-- An allocation of a committee with stake returns exactly if its total and its products fit. -/
theorem apportionable_iff (hnn : ∀ m ∈ members, 0 ≤ m.weight) (hpos : 0 < stake members)
    (hbudget : 1 ≤ budget) :
    (allocateEvalPoints sha256 members budget epoch).isSome ↔ Apportionable members budget := by
  constructor
  · intro h
    obtain ⟨out, hout⟩ := Option.isSome_iff_exists.mp h
    obtain ⟨total, htotal, hout⟩ := Option.bind_eq_some_iff.mp hout
    split_ifs at hout with hflat
    · have hstake := totalPositiveWeight_some htotal
      rw [sum_map_toNat hnn, zero_add] at hstake
      have hle : stake members ≤ total := by
        rw [hstake]
        exact Int.self_le_toNat _
      omega
    · obtain ⟨-, htotalpos⟩ := not_or.mp hflat
      obtain ⟨seats, hseats, -⟩ := Option.map_eq_some_iff.mp hout
      exact apportionable_of_seats hnn htotal (not_not.mp htotalpos) hbudget hseats
  · intro h
    rw [allocateEvalPoints_eq sha256 epoch h]
    rfl

theorem exists_seat (hm : m ∈ weightedAllocation sha256 epoch members budget) :
    ∃ s ∈ committeeSeats sha256 (stake members).toNat budget epoch members, s.weight = m.weight
      ∧ s.tie = remainderTieKey sha256 epoch m.operatorAddr
      ∧ m.evalPoints.length = seatAlloc budget (stake members).toNat
        (committeeSeats sha256 (stake members).toNat budget epoch members) s := by
  have hmem := List.mem_map_of_mem (f := fun m : RoundMember => (m.plain, m.evalPoints.length)) hm
  rw [weightedAllocation_plain] at hmem
  obtain ⟨⟨x, i⟩, hx, heq⟩ := List.mem_map.mp hmem
  obtain ⟨hplain, hcount⟩ := Prod.mk.inj heq
  have hop : x.plain.operatorAddr = m.plain.operatorAddr := congrArg RoundMember.operatorAddr hplain
  have hweight : x.plain.weight = m.plain.weight := congrArg RoundMember.weight hplain
  exact ⟨_, List.mem_map_of_mem hx, hweight, congrArg (remainderTieKey sha256 epoch) hop, hcount.symm⟩

theorem seat_nonneg (h : Apportionable members budget)
    (hs : s ∈ committeeSeats sha256 W budget epoch members) : 0 ≤ s.weight := by
  obtain ⟨-, -, m, hm, hw⟩ := mem_committeeSeats hs
  exact hw ▸ h.nonneg m hm

section

variable (h : Apportionable members budget)
  (hm : m ∈ weightedAllocation sha256 epoch members budget)

include h hm

theorem weightedAllocation_quota :
    (m.evalPoints.length : Int) = ⌊(m.weight * budget / stake members : ℚ)⌋
      ∨ (m.evalPoints.length : Int) = ⌈(m.weight * budget / stake members : ℚ)⌉ := by
  obtain ⟨s, hs, hweight, -, hcount⟩ := exists_seat hm
  obtain ⟨w, hw⟩ := Int.eq_ofNat_of_zero_le (seat_nonneg h hs)
  obtain ⟨W, hW⟩ := Int.eq_ofNat_of_zero_le h.stake_pos.le
  have hWpos : 0 < W := by have := h.stake_pos; omega
  have halloc := Apportion.alloc_eq_quota_or (total_committeeSeats sha256 epoch h)
    (by have := h.stake_pos; omega) (seatOrder_perm _) committeeSeats_desc s
  rw [← seatAlloc, ← hcount] at halloc
  simp only [seatWeight, hw, hW, Int.toNat_natCast] at halloc
  have hWq : (0 : ℚ) < W := by exact_mod_cast hWpos
  have hdiv : (W * Apportion.quota budget W w + Apportion.remainder budget W w : ℚ) = w * budget := by
    exact_mod_cast Nat.div_add_mod (w * budget) W
  have hrem : (Apportion.remainder budget W w : ℚ) < W := by exact_mod_cast Nat.mod_lt _ hWpos
  have hrem0 : (0 : ℚ) ≤ Apportion.remainder budget W w := by positivity
  rw [← hweight, hw, hW]
  refine halloc.imp (fun hq => ?_) fun ⟨hpos, hq⟩ => ?_
  · rw [eq_comm, hq, Int.floor_eq_iff]
    push_cast
    rw [le_div_iff₀ hWq, div_lt_iff₀ hWq]
    constructor <;> linarith
  · have hposq : (0 : ℚ) < Apportion.remainder budget W w := by exact_mod_cast hpos
    rw [eq_comm, hq, Int.ceil_eq_iff]
    push_cast
    rw [lt_div_iff₀ hWq, div_le_iff₀ hWq]
    constructor <;> linarith

theorem weightedAllocation_mono (hm' : m' ∈ weightedAllocation sha256 epoch members budget)
    (hlt : m'.weight < m.weight) : m'.evalPoints.length ≤ m.evalPoints.length := by
  obtain ⟨s, hs, hweight, -, hcount⟩ := exists_seat hm
  obtain ⟨s', hs', hweight', -, hcount'⟩ := exists_seat hm'
  rw [hcount, hcount']
  refine Apportion.alloc_mono h.budget_pos committeeSeats_desc
    ((seatOrder_perm _).mem_iff.mpr hs) ?_ _
  have hnn := seat_nonneg h hs'
  show s'.weight.toNat < s.weight.toNat
  omega

end

/-! The sort keys do not depend on the position, so the sorted keys do not depend on the order of the
members; with distinct tie-break keys a seat is known by its key. -/

theorem committeeSeats_keys (W : Nat) :
    (committeeSeats sha256 W budget epoch members).map seatKey
      = members.map fun m => seatKey (seatFor sha256 W budget epoch m 0) := by
  conv_rhs => rw [← List.zipIdx_map_fst 0 members, List.map_map]
  rw [committeeSeats, List.map_map]
  rfl

/-- The epoch's tie-break keys of a committee. -/
def tieKeys (sha256 : Bytes → Bytes) (epoch : Nat) (members : List RoundMember) : List Bytes :=
  members.map fun m => remainderTieKey sha256 epoch m.operatorAddr

theorem seat_eq_of_tie (hties : (tieKeys sha256 epoch members).Nodup)
    (ha : a ∈ committeeSeats sha256 W budget epoch members)
    (hb : b ∈ committeeSeats sha256 W budget epoch members) (h : a.tie = b.tie) : a = b := by
  have hmap : (committeeSeats sha256 W budget epoch members).map Seat.tie
      = tieKeys sha256 epoch members := by
    rw [tieKeys, committeeSeats, List.map_map]
    conv_rhs => rw [← List.zipIdx_map_fst 0 members, List.map_map]
    rfl
  exact List.inj_on_of_nodup_map (hmap ▸ hties) ha hb h

theorem tie_eq_of_key (h : seatKey a = seatKey b) : a.tie = b.tie := by
  simp only [seatKey, EmbeddingLike.apply_eq_iff_eq, Prod.mk.injEq] at h
  exact h.2.2

theorem seatAlloc_eq_key (hties : (tieKeys sha256 epoch members).Nodup)
    (hs : s ∈ committeeSeats sha256 W budget epoch members) :
    seatAlloc budget W (committeeSeats sha256 W budget epoch members) s
      = Apportion.quota budget W (seatWeight s)
        + if seatKey s ∈ ((seatOrder (committeeSeats sha256 W budget epoch members)).map seatKey).take
          (Apportion.leftover budget W seatWeight (committeeSeats sha256 W budget epoch members))
          then 1 else 0 := by
  unfold seatAlloc Apportion.alloc
  congr 2
  rw [← List.map_take]
  refine propext ⟨List.mem_map_of_mem, fun h => ?_⟩
  obtain ⟨b, hb, hkey⟩ := List.mem_map.mp h
  have hbs := (seatOrder_perm _).mem_iff.mp (List.mem_of_mem_take hb)
  exact seat_eq_of_tie hties hbs hs (tie_eq_of_key hkey) ▸ hb

theorem weightedAllocation_perm (hties : (tieKeys sha256 epoch members).Nodup)
    {members' : List RoundMember} (hperm : members'.Perm members)
    (hm : m ∈ weightedAllocation sha256 epoch members budget)
    (hm' : m' ∈ weightedAllocation sha256 epoch members' budget)
    (hop : m'.operatorAddr = m.operatorAddr) : m'.evalPoints.length = m.evalPoints.length := by
  have hstake : stake members' = stake members := (hperm.map RoundMember.weight).sum_eq
  obtain ⟨s, hs, -, htie, hcount⟩ := exists_seat hm
  obtain ⟨s', hs', -, htie', hcount'⟩ := exists_seat hm'
  rw [hstake] at hs' hcount'
  set W := (stake members).toNat
  have hkeys : ((committeeSeats sha256 W budget epoch members').map seatKey).Perm
      ((committeeSeats sha256 W budget epoch members).map seatKey) := by
    rw [committeeSeats_keys, committeeSeats_keys]
    exact hperm.map _
  have hsorted : (seatOrder (committeeSeats sha256 W budget epoch members')).map seatKey
      = (seatOrder (committeeSeats sha256 W budget epoch members)).map seatKey := by
    refine List.Perm.eq_of_pairwise (fun a b _ _ => le_antisymm) (seatOrder_keys_pairwise _)
      (seatOrder_keys_pairwise _) ?_
    exact ((seatOrder_perm _).map _).trans (hkeys.trans ((seatOrder_perm _).map _).symm)
  have hleft : Apportion.leftover budget W seatWeight (committeeSeats sha256 W budget epoch members')
      = Apportion.leftover budget W seatWeight (committeeSeats sha256 W budget epoch members) := by
    have hweights := (hperm.map RoundMember.weight).map fun w => Apportion.quota budget W w.toNat
    rw [← committeeSeats_map_weight sha256 W budget epoch,
      ← committeeSeats_map_weight sha256 W budget epoch, List.map_map, List.map_map] at hweights
    exact congrArg (budget - ·) hweights.sum_eq
  have hkey : seatKey s' = seatKey s := by
    obtain ⟨t, ht, hkey⟩ := List.mem_map.mp (hkeys.mem_iff.mp (List.mem_map_of_mem hs'))
    rw [← hkey, seat_eq_of_tie hties ht hs ((tie_eq_of_key hkey).trans (by rw [htie', hop, htie]))]
  have hweight : s'.weight = s.weight := by
    simp only [seatKey, EmbeddingLike.apply_eq_iff_eq, Prod.mk.injEq] at hkey
    exact hkey.2.1
  have hties' : (tieKeys sha256 epoch members').Nodup := (hperm.map _).nodup_iff.mpr hties
  rw [hcount, hcount', seatAlloc_eq_key hties hs, seatAlloc_eq_key hties' hs', hsorted, hleft, hkey,
    seatWeight, seatWeight, hweight]

end Quota

/-- **The apportionment respects quotas and stake, and not the order of the members.** For a committee of
non-negative weights with some stake and a budget it returns exactly if the total and the products with the
budget fit 256 bits. Then the members stay as they are but for their points, each gets its quota rounded down
or up, more stake never gets fewer points, and with distinct tie-break keys every operator gets as many
points in any order of the committee. -/
theorem allocateEvalPoints_apportions (sha256 : Bytes → Bytes) (members : List RoundMember)
    (budget epoch : Nat) (hnn : ∀ m ∈ members, 0 ≤ m.weight) (hpos : 0 < stake members)
    (hbudget : 1 ≤ budget) :
    ((allocateEvalPoints sha256 members budget epoch).isSome
      ↔ stake members < 2 ^ 256 ∧ ∀ m ∈ members, m.weight * budget < 2 ^ 256)
    ∧ ∀ out, allocateEvalPoints sha256 members budget epoch = some out →
      out.map RoundMember.plain = members.map RoundMember.plain
      ∧ (∀ m ∈ out, m.ownedEvalPoints = m.evalPoints
        ∧ ((m.evalPoints.length : Int) = ⌊(m.weight * budget / stake members : ℚ)⌋
          ∨ (m.evalPoints.length : Int) = ⌈(m.weight * budget / stake members : ℚ)⌉))
      ∧ (∀ m ∈ out, ∀ m' ∈ out, m'.weight < m.weight → m'.evalPoints.length ≤ m.evalPoints.length)
      ∧ ((tieKeys sha256 epoch members).Nodup → ∀ members' : List RoundMember, members'.Perm members →
        ∃ out', allocateEvalPoints sha256 members' budget epoch = some out'
          ∧ out'.map RoundMember.plain = members'.map RoundMember.plain
          ∧ ∀ m ∈ out, ∀ m' ∈ out', m'.operatorAddr = m.operatorAddr →
            m'.evalPoints.length = m.evalPoints.length) := by
  have hiff := @apportionable_iff sha256 members budget epoch hnn hpos hbudget
  refine ⟨hiff.trans ⟨fun h => ⟨h.stake_fits, h.products_fit⟩,
    fun h => ⟨hnn, hpos, h.1, h.2, hbudget⟩⟩, fun out hout => ?_⟩
  have h : Apportionable members budget := hiff.mp (by rw [hout]; rfl)
  have hplain := allocateEvalPoints_plain hout
  rw [allocateEvalPoints_eq sha256 epoch h] at hout
  cases hout
  refine ⟨hplain, fun m hm => ⟨?_, weightedAllocation_quota h hm⟩,
    fun m hm m' hm' => weightedAllocation_mono h hm hm', fun hties members' hperm => ?_⟩
  · exact RoundMember.ownedEvalPoints_of_weighted (weighted_of_mem_weightedAllocation _ _ hm)
  · have hstake : stake members' = stake members := (hperm.map RoundMember.weight).sum_eq
    have h' : Apportionable members' budget :=
      ⟨fun m hm => hnn m (hperm.mem_iff.mp hm), hstake ▸ hpos, hstake ▸ h.stake_fits,
        fun m hm => h.products_fit m (hperm.mem_iff.mp hm), hbudget⟩
    have hout' := allocateEvalPoints_eq sha256 epoch h'
    exact ⟨_, hout', allocateEvalPoints_plain hout',
      fun m hm m' hm' hop => weightedAllocation_perm hties hperm hm hm' hop⟩

/-- Seven points over the stakes 5 and 7. -/
theorem allocateEvalPoints_apportions_two :
    ∃ out, allocateEvalPoints id [plainMember 1 [1] 5, plainMember 2 [2] 7] 7 3 = some out
      ∧ ∀ m ∈ out, ∀ m' ∈ out, m'.weight < m.weight → m'.evalPoints.length ≤ m.evalPoints.length := by
  obtain ⟨hret, hall⟩ := allocateEvalPoints_apportions id [plainMember 1 [1] 5, plainMember 2 [2] 7] 7 3
    (by decide) (by decide) (by decide)
  obtain ⟨out, hout⟩ := Option.isSome_iff_exists.mp (hret.mpr (by decide))
  exact ⟨out, hout, (hall out hout).2.2.1⟩

/-- A product that leaves 256 bits panics; and a negative weight gets no point, which is neither the floor
nor the ceiling of its quota. -/
theorem allocateEvalPoints_out_of_range :
    allocateEvalPoints id [plainMember 1 [1] (2 ^ 255)] 2 3 = none
    ∧ (allocateEvalPoints id [plainMember 1 [1] 3, plainMember 2 [2] (-1)] 3 3).map
        (fun out => out.map fun m => m.evalPoints.length) = some [3, 0]
    ∧ ⌈((-1 : Int) * (3 : Nat) / (3 : Int) : ℚ)⌉ = -1 := by
  refine ⟨by decide, by decide, ?_⟩
  norm_num

end EncMempool
