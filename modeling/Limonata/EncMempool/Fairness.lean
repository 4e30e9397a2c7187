import Limonata.EncMempool.BeginBlock

/-!
# x/encmempool — the fair share of the decryption budget (`selectFairDecrypts`)

The budget is handed out round-robin, one entry of each submitter at a time. What a run of passes takes is
described by the number taken from the front of each queue (`Taken`): the numbers add up to the budget, and
there is a level that every queue reaches, as far as it has entries, and none exceeds by more than one.

* `fairPass_taken`: a pass takes one of every queue, or uses up the budget,
* `fairLoop_taken`: the level after all passes,
* `selectFairDecrypts_fair`: the selection, submitter by submitter.
-/

namespace EncMempool

variable {sel : List Nat} {cs : List (List Nat × Nat)} {budget i r : Nat} {matured : List EncTx}
  {u v : Bytes}

/-! ## Queues -/

/-- `sel` is what is taken of the queues: each pair is a queue and the number taken from its front. -/
structure Taken (qs : List (List Nat)) (sel : List Nat) (cs : List (List Nat × Nat)) : Prop where
  queues : cs.map Prod.fst = qs
  perm : sel.Perm (cs.flatMap fun c => c.1.take c.2)

/-- Every queue reaches the level `r`, as far as it has entries, and at most one more. -/
def Level (r : Nat) (cs : List (List Nat × Nat)) : Prop :=
  ∀ c ∈ cs, min c.1.length r ≤ c.2 ∧ c.2 ≤ min c.1.length (r + 1)

/-- One pass: what is left of the queues, and that it took one of each or used up the budget. -/
theorem fairPass_taken (budget : Nat) (qs : List (List Nat)) :
    ∃ cs, Taken qs (fairPass budget qs).1 cs ∧ (fairPass budget qs).2 = cs.map (fun c => c.1.drop c.2)
      ∧ (∀ c ∈ cs, c.2 ≤ min c.1.length 1) ∧ (fairPass budget qs).1.length ≤ budget
      ∧ ((∀ c ∈ cs, c.2 = min c.1.length 1) ∨ (fairPass budget qs).1.length = budget) := by
  induction budget, qs using fairPass.induct with
  | case1 budget => exact ⟨[], ⟨rfl, .refl _⟩, rfl, nofun, Nat.zero_le _, .inl nofun⟩
  | case2 qs hne =>
    have hpass : fairPass 0 qs = ([], qs) := by
      cases qs with
      | nil => exact absurd rfl hne
      | cons q qs => rfl
    rw [hpass]
    refine ⟨qs.map fun q => (q, 0), ⟨by simp [Function.comp_def], by simp⟩, by simp [Function.comp_def],
      fun c hc => ?_, Nat.zero_le _, .inr rfl⟩
    obtain ⟨q, -, rfl⟩ := List.mem_map.mp hc
    exact Nat.zero_le _
  | case3 budget qs ih =>
    obtain ⟨cs, ⟨hqs, hperm⟩, hrest, hone, hlen, hend⟩ := ih
    refine ⟨([], 0) :: cs, ⟨congrArg (List.cons []) hqs, hperm⟩, congrArg (List.cons []) hrest,
      List.forall_mem_cons.mpr ⟨Nat.zero_le _, hone⟩, hlen, hend.imp_left fun h => ?_⟩
    exact List.forall_mem_cons.mpr ⟨rfl, h⟩
  | case4 budget i q qs ih =>
    obtain ⟨cs, ⟨hqs, hperm⟩, hrest, hone, hlen, hend⟩ := ih
    have hhead : 1 = min (i :: q).length 1 := by simp
    refine ⟨(i :: q, 1) :: cs, ⟨congrArg (List.cons (i :: q)) hqs, hperm.cons i⟩,
      congrArg (List.cons q) hrest, List.forall_mem_cons.mpr ⟨hhead.le, hone⟩,
      Nat.succ_le_succ hlen, ?_⟩
    exact hend.imp (fun h => List.forall_mem_cons.mpr ⟨hhead, h⟩) fun h => congrArg (· + 1) h

theorem Taken.append {qs rest : List (List Nat)} {sel' : List Nat} {cs' : List (List Nat × Nat)}
    (h : Taken qs sel cs) (hrest : rest = cs.map fun c => c.1.drop c.2) (h' : Taken rest sel' cs') :
    ∃ ds, Taken qs (sel ++ sel') ds
      ∧ ∀ d ∈ ds, ∃ c ∈ cs, ∃ c' ∈ cs', c'.1 = c.1.drop c.2 ∧ d = (c.1, c.2 + c'.2) := by
  obtain ⟨rfl, hperm⟩ := h
  obtain ⟨hqs', hperm'⟩ := h'
  rw [hrest] at hqs'
  suffices hds : ∃ ds : List (List Nat × Nat), ds.map Prod.fst = cs.map Prod.fst
      ∧ (cs.flatMap (fun c => c.1.take c.2) ++ cs'.flatMap fun c => c.1.take c.2).Perm
        (ds.flatMap fun d => d.1.take d.2)
      ∧ ∀ d ∈ ds, ∃ c ∈ cs, ∃ c' ∈ cs', c'.1 = c.1.drop c.2 ∧ d = (c.1, c.2 + c'.2) by
    obtain ⟨ds, hqs, hall, hds⟩ := hds
    exact ⟨ds, ⟨hqs, (hperm.append hperm').trans hall⟩, hds⟩
  clear hperm hperm' hrest
  induction cs generalizing cs' with
  | nil =>
    obtain rfl := List.map_eq_nil_iff.mp hqs'
    exact ⟨[], rfl, .refl _, nofun⟩
  | cons c cs ih =>
    obtain ⟨c', tail, rfl, hc', htail⟩ := List.map_eq_cons_iff.mp hqs'
    obtain ⟨ds, hqs, hall, hds⟩ := ih htail
    refine ⟨(c.1, c.2 + c'.2) :: ds, congrArg (List.cons c.1) hqs, ?_, ?_⟩
    · have htake : c.1.take (c.2 + c'.2) = c.1.take c.2 ++ c'.1.take c'.2 := by
        rw [List.take_add, hc']
      simp only [List.flatMap_cons, htake]
      refine List.Perm.trans ?_ (hall.append_left _)
      simp only [List.append_assoc]
      exact (List.perm_append_comm_assoc _ _ _).append_left _
    · refine List.forall_mem_cons.mpr ⟨⟨c, List.mem_cons_self, c', List.mem_cons_self, hc', rfl⟩, ?_⟩
      intro d hd
      obtain ⟨x, hx, x', hx', hrel⟩ := hds d hd
      exact ⟨x, .tail _ hx, x', .tail _ hx', hrel⟩

theorem fairLoop_taken {fuel : Nat} (qs : List (List Nat)) (hfuel : budget ≤ fuel) :
    ∃ cs r, Taken qs (fairLoop fuel budget qs) cs ∧ Level r cs
      ∧ (fairLoop fuel budget qs).length ≤ budget
      ∧ ((∀ c ∈ cs, c.2 = c.1.length) ∨ (fairLoop fuel budget qs).length = budget) := by
  induction fuel generalizing budget qs with
  | zero =>
    obtain ⟨cs, htaken, -, hone, hlen, -⟩ := fairPass_taken 0 qs
    have hempty : (fairPass 0 qs).1 = [] := List.length_eq_zero_iff.mp (Nat.le_zero.mp hlen)
    rw [hempty] at htaken
    refine ⟨cs, 0, htaken, fun c hc => ⟨by simp, hone c hc⟩, Nat.zero_le _, .inr ?_⟩
    exact (Nat.le_zero.mp hfuel).symm
  | succ fuel ih =>
    obtain ⟨cs, htaken, hrest, hone, hlen, hend⟩ := fairPass_taken budget qs
    rw [fairLoop]
    split_ifs with hzero
    · -- a pass without progress: the queues are empty, or there is no budget
      rw [List.length_eq_zero_iff.mp hzero] at htaken
      refine ⟨cs, 0, htaken, fun c hc => ⟨by simp, hone c hc⟩, Nat.zero_le _, ?_⟩
      refine hend.imp (fun hall c hc => ?_) fun h => by rw [← h, hzero]; rfl
      have hnil : c.1.take c.2 = [] := by
        have hflat := htaken.perm.nil_eq.symm
        exact List.flatMap_eq_nil_iff.mp hflat c hc
      have hlen := congrArg List.length hnil
      rw [List.length_take, List.length_nil, hall c hc] at hlen
      rw [hall c hc]
      omega
    · obtain ⟨cs', r, htaken', hlevel, hlen', hend'⟩ :=
        @ih (budget - (fairPass budget qs).1.length) (fairPass budget qs).2 (by omega)
      obtain ⟨ds, hds, hsum⟩ := htaken.append hrest htaken'
      rw [List.length_append]
      obtain hall | hfull := hend
      · -- a full pass lifts the level of the rest by one
        refine ⟨ds, r + 1, hds, fun d hd => ?_, by omega, ?_⟩
        · obtain ⟨c, hc, c', hc', hdrop, rfl⟩ := hsum d hd
          have hcount := hall c hc
          obtain ⟨hlow, hhigh⟩ := hlevel c' hc'
          rw [hdrop, List.length_drop] at hlow hhigh
          simp only
          omega
        · refine hend'.imp (fun h d hd => ?_) fun h => by omega
          obtain ⟨c, hc, c', hc', hdrop, rfl⟩ := hsum d hd
          have hcount := hone c hc
          have hrestlen := h c' hc'
          rw [hdrop, List.length_drop] at hrestlen
          simp only
          omega
      · -- the pass used up the budget, and the rest takes nothing
        have hnone : (fairLoop fuel (budget - (fairPass budget qs).1.length) (fairPass budget qs).2)
            = [] := List.length_eq_zero_iff.mp (by omega)
        rw [hnone, List.append_nil]
        exact ⟨cs, 0, htaken, fun c hc => ⟨by simp, hone c hc⟩, hfull.le, .inr hfull⟩

/-! ## Submitters -/

/-- The positions of a submitter's entries, in list order. -/
def entriesOf (matured : List EncTx) (sub : Bytes) : List Nat :=
  (matured.zipIdx.filter (fun p => p.1.submitter = sub)).map Prod.snd

/-- The entries of a submitter that a selection contains. -/
def selectedOf (matured : List EncTx) (sel : List Nat) (sub : Bytes) : List Nat :=
  (entriesOf matured sub).filter (· ∈ sel)

def submitters (matured : List EncTx) : List Bytes :=
  (matured.map EncTx.submitter).eraseDups

theorem mem_entriesOf {sub : Bytes} :
    i ∈ entriesOf matured sub ↔ ∃ e, matured[i]? = some e ∧ e.submitter = sub := by
  simp [entriesOf, List.mem_zipIdx_iff_getElem?]

theorem nodup_entriesOf (matured : List EncTx) (sub : Bytes) : (entriesOf matured sub).Nodup := by
  have hsub : (entriesOf matured sub).Sublist (List.range' 0 matured.length) := by
    rw [← List.zipIdx_map_snd]
    exact List.filter_sublist.map _
  exact hsub.nodup List.nodup_range'

theorem disjoint_entriesOf (matured : List EncTx) (h : u ≠ v) :
    (entriesOf matured u).Disjoint (entriesOf matured v) := by
  intro i hu hv
  obtain ⟨e, he, rfl⟩ := mem_entriesOf.mp hu
  obtain ⟨e', he', rfl⟩ := mem_entriesOf.mp hv
  obtain rfl := Option.some.inj (he.symm.trans he')
  exact h rfl

theorem nodup_submitters (matured : List EncTx) : (submitters matured).Nodup := by
  rw [submitters]
  generalize matured.map EncTx.submitter = subs
  induction hlen : subs.length using Nat.strong_induction_on generalizing subs with
  | _ n ih =>
    cases subs with
    | nil => simp
    | cons u subs =>
      rw [List.eraseDups_cons, List.nodup_cons]
      refine ⟨by simp, ih _ ?_ _ rfl⟩
      exact hlen ▸ Nat.lt_succ_of_le (List.length_filter_le _ _)

theorem entriesOf_perm_range (matured : List EncTx) :
    ((submitters matured).flatMap (entriesOf matured)).Perm (List.range matured.length) := by
  rw [List.perm_ext_iff_of_nodup _ List.nodup_range]
  · intro i
    simp only [List.mem_flatMap, mem_entriesOf, submitters, List.mem_eraseDups, List.mem_map, List.mem_range]
    constructor
    · rintro ⟨-, -, e, he, -⟩
      exact (List.getElem?_eq_some_iff.mp he).1
    · intro hi
      exact ⟨_, ⟨matured[i], List.getElem_mem hi, rfl⟩, _, List.getElem?_eq_getElem hi, rfl⟩
  · refine List.nodup_flatMap.mpr ⟨fun u _ => nodup_entriesOf matured u, ?_⟩
    exact List.Pairwise.imp (fun h => disjoint_entriesOf matured h) (nodup_submitters matured)

theorem filter_mem_take {l : List Nat} (h : l.Nodup) (n : Nat) : l.filter (· ∈ l.take n) = l.take n := by
  have hsplit := h
  rw [← List.take_append_drop n l] at hsplit
  conv_lhs => rw [← List.take_append_drop n l, List.filter_append]
  rw [List.take_append_drop, List.filter_eq_self.mpr fun i hi => decide_eq_true hi,
    List.filter_eq_nil_iff.mpr, List.append_nil]
  intro i hi htake
  exact (List.nodup_append.mp hsplit).2.2 i (of_decide_eq_true htake) i hi rfl

theorem Taken.selectedOf_eq (h : Taken ((submitters matured).map (entriesOf matured)) sel cs)
    {c : List Nat × Nat} (hc : c ∈ cs) (hu : c.1 = entriesOf matured u) :
    selectedOf matured sel u = (entriesOf matured u).take c.2 := by
  have hdisjoint : cs.Pairwise fun c c' => c.1.Disjoint c'.1 := by
    rw [← List.pairwise_map (R := List.Disjoint), h.queues, List.pairwise_map]
    exact List.Pairwise.imp (fun h => disjoint_entriesOf matured h) (nodup_submitters matured)
  have hsymm : Std.Symm fun c c' : List Nat × Nat => c.1.Disjoint c'.1 := ⟨fun _ _ => List.Disjoint.symm⟩
  rw [← filter_mem_take (nodup_entriesOf matured u) c.2, selectedOf]
  refine List.filter_congr fun i hi => decide_eq_decide.mpr ?_
  rw [h.perm.mem_iff, List.mem_flatMap]
  constructor
  · rintro ⟨c', hc', hi'⟩
    have hsame : c' = c := by
      by_contra hne
      exact hdisjoint.forall hc' hc hne (List.mem_of_mem_take hi') (hu ▸ hi)
    rwa [hsame, hu] at hi'
  · intro hi'
    exact ⟨c, hc, hu ▸ hi'⟩

/-- The selection is level: every submitter gets `r`, as far as they have entries, or one more. -/
structure FairSelection (matured : List EncTx) (budget : Nat) (sel : List Nat) (r : Nat) : Prop where
  nodup : sel.Nodup
  bound : ∀ i ∈ sel, i < matured.length
  length : sel.length = min budget matured.length
  isPrefix : ∀ u, selectedOf matured sel u <+: entriesOf matured u
  low : ∀ u, min (entriesOf matured u).length r ≤ (selectedOf matured sel u).length
  high : ∀ u, (selectedOf matured sel u).length ≤ r + 1

theorem length_entriesOf_le (matured : List EncTx) (u : Bytes) :
    (entriesOf matured u).length ≤ matured.length := by
  rw [entriesOf, List.length_map]
  exact (List.length_filter_le _ _).trans List.length_zipIdx.le

theorem Taken.fair (h : Taken ((submitters matured).map (entriesOf matured)) sel cs)
    (hlevel : Level r cs) (hlen : sel.length = min budget matured.length) :
    FairSelection matured budget sel r := by
  have hsub : ∀ u, ∃ n, selectedOf matured sel u = (entriesOf matured u).take n
      ∧ min (entriesOf matured u).length r ≤ n ∧ n ≤ r + 1 := by
    intro u
    by_cases hu : u ∈ submitters matured
    · have hmem := List.mem_map_of_mem (f := entriesOf matured) hu
      rw [← h.queues] at hmem
      obtain ⟨c, hc, hcu⟩ := List.mem_map.mp hmem
      obtain ⟨hlow, hhigh⟩ := hlevel c hc
      exact ⟨c.2, h.selectedOf_eq hc hcu, hcu ▸ hlow, hhigh.trans (Nat.min_le_right _ _)⟩
    · have hnone : entriesOf matured u = [] := by
        refine List.eq_nil_iff_forall_not_mem.mpr fun i hi => hu ?_
        obtain ⟨e, he, rfl⟩ := mem_entriesOf.mp hi
        exact List.mem_eraseDups.mpr (List.mem_map_of_mem (List.mem_of_getElem? he))
      exact ⟨0, by simp [selectedOf, hnone], by simp [hnone], Nat.zero_le _⟩
  have hpart : (cs.flatMap fun c => c.1.take c.2).Sublist
      ((submitters matured).flatMap (entriesOf matured)) := by
    rw [List.flatMap_def (f := entriesOf matured), ← h.queues, ← List.flatMap_def]
    exact List.Sublist.flatMap_right cs fun c _ => List.take_sublist _ _
  have hperm := entriesOf_perm_range matured
  refine ⟨?_, fun i hi => ?_, hlen, fun u => ?_, fun u => ?_, fun u => ?_⟩
  · exact h.perm.nodup_iff.mpr (hpart.nodup (hperm.nodup_iff.mpr List.nodup_range))
  · exact List.mem_range.mp (hperm.mem_iff.mp (hpart.subset (h.perm.mem_iff.mp hi)))
  all_goals obtain ⟨n, hn, hlow, hhigh⟩ := hsub u
  · exact hn ▸ List.take_prefix _ _
  · rw [hn, List.length_take]
    omega
  · rw [hn]
    exact (List.length_take_le _ _).trans hhigh

theorem selectFairDecrypts_level (matured : List EncTx) (budget : Nat) :
    ∃ r, FairSelection matured budget (selectFairDecrypts matured budget) r := by
  rw [selectFairDecrypts]
  split_ifs with hfits
  · have hall : ∀ u, selectedOf matured (List.range matured.length) u = entriesOf matured u := by
      refine fun u => List.filter_eq_self.mpr fun i hi => decide_eq_true (List.mem_range.mpr ?_)
      obtain ⟨e, he, -⟩ := mem_entriesOf.mp hi
      exact (List.getElem?_eq_some_iff.mp he).1
    refine ⟨matured.length, List.nodup_range, fun i => List.mem_range.mp, by simp [hfits], fun u => ?_,
      fun u => ?_, fun u => ?_⟩
    all_goals rw [hall u]
    · exact Nat.min_le_left _ _
    · exact (length_entriesOf_le matured u).trans (Nat.le_succ _)
  · obtain ⟨cs, r, htaken, hlevel, hle, hend⟩ :=
      fairLoop_taken ((submitters matured).map (entriesOf matured)) (le_refl budget)
    refine ⟨r, htaken.fair hlevel ?_⟩
    have hmin : min budget matured.length = budget := by omega
    obtain hall | hbudget := hend
    · -- every entry would be taken, and there are more of them than the budget
      have hflat : (cs.flatMap fun c => c.1.take c.2) = (submitters matured).flatMap (entriesOf matured) := by
        rw [List.flatMap_def (f := entriesOf matured), ← htaken.queues, ← List.flatMap_def]
        exact List.flatMap_congr fun c hc => by rw [hall c hc, List.take_length]
      have hlen := htaken.perm.length_eq
      rw [hflat, (entriesOf_perm_range matured).length_eq, List.length_range] at hlen
      omega
    · exact hbudget.trans hmin.symm

theorem FairSelection.length_eq_sum (h : FairSelection matured budget sel r) :
    sel.length = ((submitters matured).map fun u => (selectedOf matured sel u).length).sum := by
  have hperm : sel.Perm ((List.range matured.length).filter (· ∈ sel)) := by
    rw [List.perm_ext_iff_of_nodup h.nodup (List.nodup_range.filter _)]
    intro i
    simp only [List.mem_filter, List.mem_range, decide_eq_true_eq]
    exact ⟨fun hi => ⟨h.bound i hi, hi⟩, And.right⟩
  rw [hperm.length_eq, ← ((entriesOf_perm_range matured).filter _).length_eq, List.filter_flatMap,
    List.length_flatMap]
  rfl

theorem FairSelection.lt_of_unselected (h : FairSelection matured budget sel r)
    (hi : i ∈ entriesOf matured v) (hsel : i ∉ sel) :
    (selectedOf matured sel v).length < (entriesOf matured v).length
      ∧ ∀ u, (selectedOf matured sel u).length ≤ (selectedOf matured sel v).length + 1 := by
  have hlt : (selectedOf matured sel v).length < (entriesOf matured v).length :=
    List.length_filter_lt_length_iff_exists.mpr ⟨i, hi, by simpa using hsel⟩
  refine ⟨hlt, fun u => ?_⟩
  have hlow := h.low v
  have hhigh := h.high u
  omega

/-- The selection has the size of the budget, or everything is selected; of each submitter it takes the
first entries; who has an entry left out is at most one behind any other submitter; so who has at most an
equal share of the budget has every entry selected. -/
theorem selectFairDecrypts_fair (matured : List EncTx) (budget : Nat) :
    (selectFairDecrypts matured budget).Nodup
    ∧ (∀ i ∈ selectFairDecrypts matured budget, i < matured.length)
    ∧ (selectFairDecrypts matured budget).length = min budget matured.length
    ∧ (∀ u, selectedOf matured (selectFairDecrypts matured budget) u <+: entriesOf matured u)
    ∧ (∀ u v, (∃ i ∈ entriesOf matured v, i ∉ selectFairDecrypts matured budget) →
        (selectedOf matured (selectFairDecrypts matured budget) u).length
          ≤ (selectedOf matured (selectFairDecrypts matured budget) v).length + 1)
    ∧ (∀ u, (entriesOf matured u).length ≤ budget / (submitters matured).length →
        ∀ i ∈ entriesOf matured u, i ∈ selectFairDecrypts matured budget) := by
  obtain ⟨r, hfair⟩ := selectFairDecrypts_level matured budget
  refine ⟨hfair.nodup, hfair.bound, hfair.length, hfair.isPrefix, ?_, ?_⟩
  · rintro u v ⟨i, hi, hsel⟩
    exact (hfair.lt_of_unselected hi hsel).2 u
  · -- an entry left out: every submitter has at most the equal share and one has less
    intro u hshare i hi
    by_contra hsel
    obtain ⟨hlt, hone⟩ := hfair.lt_of_unselected hi hsel
    have hu : u ∈ submitters matured := by
      obtain ⟨e, he, rfl⟩ := mem_entriesOf.mp hi
      exact List.mem_eraseDups.mpr (List.mem_map_of_mem (List.mem_of_getElem? he))
    have hsum : ((submitters matured).map fun u =>
          (selectedOf matured (selectFairDecrypts matured budget) u).length).sum
        < ((submitters matured).map fun _ => budget / (submitters matured).length).sum := by
      refine List.sum_lt_sum _ _ (fun v _ => ?_) ⟨u, hu, hlt.trans_le hshare⟩
      exact (hone v).trans (hlt.trans_le hshare)
    have hall : (selectFairDecrypts matured budget).length = budget := by
      have hne : (selectFairDecrypts matured budget).length ≠ matured.length := by
        intro hlen
        have hsub := hfair.nodup.subperm fun j hj => List.mem_range.mpr (hfair.bound j hj)
        have hperm := hsub.perm_of_length_le (by rw [List.length_range, hlen])
        obtain ⟨e, he, -⟩ := mem_entriesOf.mp hi
        exact hsel (hperm.mem_iff.mpr (List.mem_range.mpr (List.getElem?_eq_some_iff.mp he).1))
      have hlen := hfair.length
      omega
    rw [← hfair.length_eq_sum, hall, List.map_const', List.sum_replicate, smul_eq_mul] at hsum
    exact hsum.not_ge (Nat.mul_div_le _ _)

end EncMempool
