import Limonata.Lib.Reach

/-!
# Undo journals

A state with a journal of entries that undo what was done to it, and numbered revisions that a revert
goes back to. Beside the state stands a record that is not journaled: a revision saves it and a revert
restores it. The record says what the state should be after a revert, the journal is how it gets there.

An undo need not give back the very state: it gives one that is as good, in a preorder `R` that the
undoing of entries respects. `Undoes` says this of the entries of one action, and `Discipline` says of
a system that every action can be undone where an invariant holds, and keeps it.

`Trail` records how a journal came about from a base, action by action, with the revisions in between.
It survives a revert, so the invariant of a discipline holds along every run with reverts
(`Discipline.invariant`), and a revert is exact (`Discipline.revert_exact`).
-/

/-- A revision: its number, and the length of the journal and the record when it was taken. -/
structure Revision (G : Type) where
  id : Nat
  journalIndex : Nat
  record : G

/-- A state, its journal, the record and the valid revisions; journal and revisions the newest first. -/
structure Journaled (S E G : Type) where
  state : S
  journal : List E
  record : G
  validRevisions : List (Revision G)
  nextRevisionID : Nat

namespace Journaled

variable {S E G : Type} {R : S → S → Prop} {undo : E → S → Option S}
  {Act : S → List E → G → S → List E → G → Prop} {I : S → List E → G → Prop}
variable {s' s t : S} {es j j' : List E} {id : Nat} {rs rs' : List (Revision G)} {r : Revision G}
  {g : G}

/-! ## Undoing -/

/-- Undo entries from the newest on; `none` is the panic of an entry that cannot be undone. -/
def undoAll (undo : E → S → Option S) : List E → S → Option S
  | [], s => some s
  | e :: es, s => (undo e s).bind (undoAll undo es)

theorem undoAll_append (undo : E → S → Option S) (es fs : List E) (s : S) :
    undoAll undo (es ++ fs) s = (undoAll undo es s).bind (undoAll undo fs) := by
  induction es generalizing s with
  | nil => rfl
  | cons e es ih =>
    rw [List.cons_append, undoAll, undoAll]
    cases undo e s with
    | none => rfl
    | some t => exact ih t

/-- The entries lead from every state that is as good as `s'` to one that is as good as `s`. -/
def Undoes (R : S → S → Prop) (undo : E → S → Option S) (es : List E) (s' s : S) : Prop :=
  ∀ t, R s' t → ∃ t', undoAll undo es t = some t' ∧ R s t'

theorem Undoes.nil (h : ∀ t, R s' t → R s t) : Undoes R undo [] s' s :=
  fun t ht => ⟨t, rfl, h t ht⟩

theorem Undoes.append {fs : List E} {s'' : S} (hfs : Undoes R undo fs s'' s')
    (hes : Undoes R undo es s' s) : Undoes R undo (fs ++ es) s'' s := by
  intro t ht
  obtain ⟨t', hundo, ht'⟩ := hfs t ht
  obtain ⟨u, hundo', hu⟩ := hes t' ht'
  refine ⟨u, ?_, hu⟩
  rw [undoAll_append, hundo]
  exact hundo'

theorem Undoes.single {e : E} (h : ∀ t, R s' t → ∃ t', undo e t = some t' ∧ R s t') :
    Undoes R undo [e] s' s := by
  intro t ht
  obtain ⟨t', hundo, ht'⟩ := h t ht
  exact ⟨t', by rw [undoAll, hundo]; rfl, ht'⟩

/-! ## Revisions -/

/-- A revert to a revision: the entries since are undone, the record is the saved one, and the revision
and those after it are no longer valid. `none` is a revision that is not valid. -/
def revertTo (undo : E → S → Option S) (id : Nat) (s : S) (j : List E) (rs : List (Revision G)) :
    Option (S × List E × G × List (Revision G)) :=
  match rs.dropWhile (fun r => id < r.id) with
  | [] => none
  | r :: rest =>
    if r.id = id then
      (undoAll undo (j.take (j.length - r.journalIndex)) s).map fun t =>
        (t, j.drop (j.length - r.journalIndex), r.record, rest)
    else none

def revert (undo : E → S → Option S) (s : Journaled S E G) (id : Nat) : Option (Journaled S E G) :=
  (revertTo undo id s.state s.journal s.validRevisions).map fun (t, j, g, rs) =>
    { s with state := t, journal := j, record := g, validRevisions := rs }

/-- A new revision, with the number `nextRevisionID`. -/
def snapshot (s : Journaled S E G) : Journaled S E G :=
  { s with
    validRevisions := ⟨s.nextRevisionID, s.journal.length, s.record⟩ :: s.validRevisions
    nextRevisionID := s.nextRevisionID + 1 }

/-- Undoing the entries of an action and reverting from before it is reverting from after it. -/
theorem revertTo_append (hlen : ∀ r ∈ rs, r.journalIndex ≤ j.length)
    (hundo : undoAll undo es s' = some s) :
    revertTo undo id s' (es ++ j) rs = revertTo undo id s j rs := by
  unfold revertTo
  cases hdrop : rs.dropWhile (fun r => id < r.id) with
  | nil => rfl
  | cons r rest =>
    have hr : r.journalIndex ≤ j.length := hlen r
      (List.dropWhile_sublist _ |>.subset (hdrop ▸ List.mem_cons_self))
    have htake : (es ++ j).length - r.journalIndex = es.length + (j.length - r.journalIndex) := by
      rw [List.length_append]
      omega
    simp only [htake, List.take_length_add_append, List.drop_length_add_append, undoAll_append, hundo,
      Option.bind_some]

theorem revertTo_cons_of_lt (hid : id < r.id) (s : S) (j : List E) (rs : List (Revision G)) :
    revertTo undo id s j (r :: rs) = revertTo undo id s j rs := by
  unfold revertTo
  rw [List.dropWhile_cons_of_pos (by simpa using hid)]

/-- A revert to the newest revision, taken of the present journal, undoes nothing. -/
theorem revertTo_cons_self (id : Nat) (s : S) (j : List E) (g : G) (rs : List (Revision G)) :
    revertTo undo id s j (⟨id, j.length, g⟩ :: rs) = some (s, j, g, rs) := by
  simp [revertTo, undoAll]

theorem revertTo_cons_of_gt (hid : r.id < id) (s : S) (j : List E) (rs : List (Revision G)) :
    revertTo undo id s j (r :: rs) = none := by
  unfold revertTo
  rw [List.dropWhile_cons_of_neg (by simpa using hid.le)]
  simp [hid.ne]

/-- A revert keeps revisions only, and goes back to the record of one. -/
theorem revertTo_spec (h : revertTo undo id s j rs = some (t, j', g, rs')) :
    rs' ⊆ rs ∧ ∃ r ∈ rs, r.record = g := by
  unfold revertTo at h
  cases hdrop : rs.dropWhile (fun r => id < r.id) with
  | nil => simp [hdrop] at h
  | cons r rest =>
    simp only [hdrop] at h
    split_ifs at h
    have hsub : r :: rest ⊆ rs := hdrop ▸ (List.dropWhile_sublist _).subset
    obtain ⟨u, -, hu⟩ := Option.map_eq_some_iff.mp h
    cases hu
    exact ⟨fun x hx => hsub (List.mem_cons_of_mem _ hx), r, hsub List.mem_cons_self, rfl⟩

/-! ## Runs -/

/-- The steps of a journaled state: actions, snapshots and reverts. -/
inductive Step (undo : E → S → Option S) (Act : S → List E → G → S → List E → G → Prop)
    (s : Journaled S E G) : Journaled S E G → Prop where
  | act {s' : S} {es : List E} {g' : G} (h : Act s.state s.journal s.record s' es g') :
      Step undo Act s { s with state := s', journal := es ++ s.journal, record := g' }
  | snapshot : Step undo Act s s.snapshot
  | revert {id : Nat} {s' : Journaled S E G} (h : s.revert undo id = some s') : Step undo Act s s'

abbrev Runs (undo : E → S → Option S) (Act : S → List E → G → S → List E → G → Prop) :
    Journaled S E G → Journaled S E G → Prop :=
  Relation.ReflTransGen (Step undo Act)

/-- A state with no journal and no revision. -/
def fresh (s : S) (g : G) : Journaled S E G := ⟨s, [], g, [], 0⟩

/-- The revisions are within the journal. -/
def Marked (s : Journaled S E G) : Prop := ∀ r ∈ s.validRevisions, r.journalIndex ≤ s.journal.length

/-- The numbers of the revisions are below the next one. -/
def Numbered (s : Journaled S E G) : Prop := ∀ r ∈ s.validRevisions, r.id < s.nextRevisionID

theorem Numbered.snapshot {s : Journaled S E G} (h : s.Numbered) : s.snapshot.Numbered :=
  List.forall_mem_cons.mpr ⟨Nat.lt_succ_self _, fun r hr => (h r hr).trans (Nat.lt_succ_self _)⟩

theorem Numbered.step {s s' : Journaled S E G} (h : s.Numbered) (hstep : Step undo Act s s') :
    s'.Numbered ∧ s.nextRevisionID ≤ s'.nextRevisionID := by
  cases hstep with
  | act hact => exact ⟨h, le_rfl⟩
  | snapshot => exact ⟨h.snapshot, Nat.le_succ _⟩
  | revert hrev =>
    obtain ⟨r, hr, rfl⟩ := Option.map_eq_some_iff.mp hrev
    exact ⟨fun x hx => h x ((revertTo_spec hr).1 hx), le_rfl⟩

/-- **Record rule.** What actions keep of the record holds along every run with reverts. -/
theorem runs_record {J : G → Prop} (hact : ∀ s j g s' es g', J g → Act s j g s' es g' → J g')
    {s s' : Journaled S E G} (hrun : Runs undo Act s s') (hs : J s.record)
    (hrevisions : s.validRevisions = []) : J s'.record := by
  have hkeep : J s'.record ∧ ∀ r ∈ s'.validRevisions, J r.record := by
    refine Reach.run_keeps (I := fun s : Journaled S E G =>
      J s.record ∧ ∀ r ∈ s.validRevisions, J r.record) ?_ hrun ⟨hs, by simp [hrevisions]⟩
    rintro s s' hstep ⟨hs, hall⟩
    cases hstep with
    | act h => exact ⟨hact _ _ _ _ _ _ hs h, hall⟩
    | snapshot => exact ⟨hs, List.forall_mem_cons.mpr ⟨hs, hall⟩⟩
    | revert hrev =>
      obtain ⟨⟨t, j, g, rs⟩, hr, rfl⟩ := Option.map_eq_some_iff.mp hrev
      obtain ⟨hsub, r, hmem, hrecord⟩ := revertTo_spec hr
      exact ⟨hrecord ▸ hall r hmem, fun x hx => hall x (hsub hx)⟩
  exact hkeep.1

/-! ## Trails -/

/-- How a state, a journal, a record and revisions came about from those of a base, by actions from
states with the invariant. A state may be replaced by one that is as good: that is what a revert
leaves. -/
inductive Trail (R : S → S → Prop) (I : S → List E → G → Prop)
    (Act : S → List E → G → S → List E → G → Prop) (base : Journaled S E G) :
    S → List E → G → List (Revision G) → Prop where
  | base {s : S} (hs : R base.state s) :
      Trail R I Act base s base.journal base.record base.validRevisions
  | act {s s' t : S} {j es : List E} {g g' : G} {rs : List (Revision G)}
      (h : Trail R I Act base s j g rs) (hI : I s j g) (hact : Act s j g s' es g') (ht : R s' t) :
      Trail R I Act base t (es ++ j) g' rs
  | snapshot {s : S} {j : List E} {g : G} {rs : List (Revision G)} {id : Nat}
      (h : Trail R I Act base s j g rs) (hid : ∀ r ∈ rs, r.id < id) :
      Trail R I Act base s j g (⟨id, j.length, g⟩ :: rs)

/-- A system whose actions keep an invariant and can be undone where it holds. -/
structure Discipline (R : S → S → Prop) (undo : E → S → Option S) (I : S → List E → G → Prop)
    (Act : S → List E → G → S → List E → G → Prop) : Prop where
  refl : ∀ s, R s s
  trans : ∀ s t u, R s t → R t u → R s u
  replace : ∀ s t j g, R s t → I s j g → I t j g
  keep : ∀ s j g s' es g', I s j g → Act s j g s' es g' → I s' (es ++ j) g'
  undoes : ∀ s j g s' es g', I s j g → Act s j g s' es g' → Undoes R undo es s' s

namespace Discipline

variable {base : Journaled S E G} {s t : S} {j : List E} {g : G} {rs : List (Revision G)}
  (D : Discipline R undo I Act)

include D

section

variable (h : Trail R I Act base s j g rs)

include h

theorem trail_mono (hst : R s t) : Trail R I Act base t j g rs := by
  induction h with
  | base hs => exact .base (D.trans _ _ _ hs hst)
  | act h hI hact ht => exact .act h hI hact (D.trans _ _ _ ht hst)
  | snapshot h hid ih => exact .snapshot (ih hst) hid

theorem trail_invariant (hbase : I base.state base.journal base.record) : I s j g := by
  induction h with
  | base hs => exact D.replace _ _ _ _ hs hbase
  | act h hI hact ht => exact D.replace _ _ _ _ ht (D.keep _ _ _ _ _ _ hI hact)
  | snapshot h hid ih => exact ih

omit D in
theorem trail_marked (hbase : base.Marked) : ∀ r ∈ rs, r.journalIndex ≤ j.length := by
  induction h with
  | base hs => exact hbase
  | act h hI hact ht ih =>
    intro r hr
    rw [List.length_append]
    exact (ih r hr).trans (Nat.le_add_left _ _)
  | snapshot h hid ih => exact List.forall_mem_cons.mpr ⟨le_rfl, ih⟩

/-- A revert to a revision of the base, or to one before, leads to the base and goes on from there. -/
theorem trail_revert_base (hbase : base.Marked) {id : Nat}
    (hid : ∃ r ∈ base.validRevisions, id ≤ r.id) :
    (∃ r ∈ rs, id ≤ r.id) ∧ ∀ u, R s u → ∃ v, R base.state v
      ∧ revertTo undo id u j rs = revertTo undo id v base.journal base.validRevisions := by
  induction h with
  | base hs => exact ⟨hid, fun u hu => ⟨u, D.trans _ _ _ hs hu, rfl⟩⟩
  | act h hI hact ht ih =>
    refine ⟨ih.1, fun u hu => ?_⟩
    obtain ⟨v, hv, hsv⟩ := D.undoes _ _ _ _ _ _ hI hact u (D.trans _ _ _ ht hu)
    rw [revertTo_append (trail_marked h hbase) hv]
    exact ih.2 v hsv
  | @snapshot s j g rs id' h hid' ih =>
    obtain ⟨⟨r, hr, hle⟩, hall⟩ := ih
    refine ⟨⟨r, List.mem_cons_of_mem _ hr, hle⟩, fun u hu => ?_⟩
    have hlt : id < id' := hle.trans_lt (hid' r hr)
    rw [revertTo_cons_of_lt hlt]
    exact hall u hu

/-- A revert stays on the trail, or it leads to the base and goes on from there, or its revision is not
valid. -/
theorem trail_revert (hbase : base.Marked) (id : Nat) :
    ∀ u, R s u →
      (∃ t j' g' rs', revertTo undo id u j rs = some (t, j', g', rs')
        ∧ Trail R I Act base t j' g' rs')
      ∨ (∃ v, R base.state v
        ∧ revertTo undo id u j rs = revertTo undo id v base.journal base.validRevisions)
      ∨ revertTo undo id u j rs = none := by
  induction h with
  | base hs =>
    intro u hu
    exact .inr (.inl ⟨u, D.trans _ _ _ hs hu, rfl⟩)
  | act h hI hact ht ih =>
    -- first undo the action, then revert from the state before it
    intro u hu
    obtain ⟨v, hv, hsv⟩ := D.undoes _ _ _ _ _ _ hI hact u (D.trans _ _ _ ht hu)
    rw [revertTo_append (trail_marked h hbase) hv]
    exact ih v hsv
  | @snapshot s j g rs id' h hid ih =>
    intro u hu
    rcases Nat.lt_trichotomy id id' with hlt | rfl | hgt
    · rw [revertTo_cons_of_lt hlt]
      exact ih u hu
    · exact .inl ⟨u, j, g, rs, revertTo_cons_self .., D.trail_mono h hu⟩
    · exact .inr (.inr (revertTo_cons_of_gt hgt ..))

end

omit D in
/-- The journal since the base leads back to it, also in a coarser preorder in which every action can be
undone. -/
theorem trail_undoes {R' : S → S → Prop} (hR' : ∀ s t u, R s t → R' t u → R' s u)
    (hundoes : ∀ s j g s' es g', I s j g → Act s j g s' es g' → Undoes R' undo es s' s)
    (h : Trail R I Act base s j g rs) : ∃ es, j = es ++ base.journal ∧ Undoes R' undo es s base.state := by
  induction h with
  | base hs => exact ⟨[], rfl, Undoes.nil fun t ht => hR' _ _ _ hs ht⟩
  | @act s s' t j es g g' rs h hI hact ht ih =>
    obtain ⟨fs, hj, hfs⟩ := ih
    have hes : Undoes R' undo es t s :=
      fun u hu => hundoes _ _ _ _ _ _ hI hact u (hR' _ _ _ ht hu)
    exact ⟨es ++ fs, by rw [hj, List.append_assoc], hes.append hfs⟩
  | snapshot h hid ih => exact ih

theorem and {J : S → List E → G → Prop} (hreplace : ∀ s t j g, R s t → J s j g → J t j g)
    (hkeep : ∀ s j g s' es g', I s j g → J s j g → Act s j g s' es g' → J s' (es ++ j) g') :
    Discipline R undo (fun s j g => I s j g ∧ J s j g) Act where
  refl := D.refl
  trans := D.trans
  replace s t j g hst h := ⟨D.replace s t j g hst h.1, hreplace s t j g hst h.2⟩
  keep s j g s' es g' h hact := ⟨D.keep s j g s' es g' h.1 hact, hkeep s j g s' es g' h.1 h.2 hact⟩
  undoes s j g s' es g' h hact := D.undoes s j g s' es g' h.1 hact

/-! ## What a run leaves -/

theorem trail_of_runs {base s : Journaled S E G} (hbase : base.validRevisions = [])
    (hinit : I base.state base.journal base.record) (hrun : Runs undo Act base s) :
    s.Numbered ∧ Trail R I Act base s.state s.journal s.record s.validRevisions := by
  have hmarked : base.Marked := by simp [Marked, hbase]
  refine Reach.run_keeps (I := fun s : Journaled S E G => s.Numbered
    ∧ Trail R I Act base s.state s.journal s.record s.validRevisions) ?_ hrun
    ⟨by simp [Numbered, hbase], .base (D.refl _)⟩
  rintro s s' hstep ⟨hnumbered, h⟩
  refine ⟨(hnumbered.step hstep).1, ?_⟩
  cases hstep with
  | act hact => exact .act h (D.trail_invariant h hinit) hact (D.refl _)
  | snapshot => exact .snapshot h hnumbered
  | revert hrev =>
    obtain ⟨r, hr, rfl⟩ := Option.map_eq_some_iff.mp hrev
    rcases D.trail_revert h hmarked _ _ (D.refl _) with
      ⟨t, j', g', rs', heq, htrail⟩ | ⟨v, -, heq⟩ | heq
    · rw [heq] at hr
      cases hr
      exact htrail
    · -- the base has no revision
      rw [heq, hbase] at hr
      cases hr
    · rw [heq] at hr
      cases hr

/-- **Invariant rule.** The invariant holds along every run with reverts. -/
theorem invariant {base s : Journaled S E G} (hbase : base.validRevisions = [])
    (hinit : I base.state base.journal base.record) (hrun : Runs undo Act base s) :
    I s.state s.journal s.record :=
  D.trail_invariant (D.trail_of_runs hbase hinit hrun).2 hinit

theorem marked {base s : Journaled S E G} (hbase : base.validRevisions = [])
    (hinit : I base.state base.journal base.record) (hrun : Runs undo Act base s) : s.Marked :=
  trail_marked (D.trail_of_runs hbase hinit hrun).2 (by simp [Marked, hbase])

/-- What a run added to the journal leads back to where it started, also in a coarser preorder. -/
theorem runs_undoes {R' : S → S → Prop} (hR' : ∀ s t u, R s t → R' t u → R' s u)
    (hundoes : ∀ s j g s' es g', I s j g → Act s j g s' es g' → Undoes R' undo es s' s)
    {base s : Journaled S E G} (hbase : base.validRevisions = [])
    (hinit : I base.state base.journal base.record) (hrun : Runs undo Act base s) :
    ∃ es, s.journal = es ++ base.journal ∧ Undoes R' undo es s.state base.state :=
  trail_undoes hR' hundoes (D.trail_of_runs hbase hinit hrun).2

omit D in
theorem gone_of_revert_base {base : Journaled S E G} {id : Nat} {v t : S} {j' : List E} {g' : G}
    {rs' : List (Revision G)} (hnumbered : base.Numbered)
    (h : revertTo undo id v base.snapshot.journal base.snapshot.validRevisions
      = some (t, j', g', rs')) :
    ∀ r ∈ rs', r.id ≠ base.nextRevisionID := by
  intro r hr
  unfold snapshot at h
  rcases Nat.lt_trichotomy id base.nextRevisionID with hlt | rfl | hgt
  · rw [revertTo_cons_of_lt hlt] at h
    exact (hnumbered r ((revertTo_spec h).1 hr)).ne
  · rw [revertTo_cons_self] at h
    cases h
    exact (hnumbered r hr).ne
  · rw [revertTo_cons_of_gt hgt] at h
    cases h

theorem trail_since {base s : Journaled S E G} (hI : I base.state base.journal base.record)
    (hbase : base.Marked) (hnumbered : base.Numbered) (hrun : Runs undo Act base.snapshot s)
    (hvalid : ∃ r ∈ s.validRevisions, r.id = base.nextRevisionID) :
    Trail R I Act base.snapshot s.state s.journal s.record s.validRevisions := by
  have hmarked : base.snapshot.Marked := List.forall_mem_cons.mpr ⟨le_rfl, hbase⟩
  have hkeep : (s.Numbered ∧ base.nextRevisionID < s.nextRevisionID)
      ∧ ((∀ r ∈ s.validRevisions, r.id ≠ base.nextRevisionID)
        ∨ Trail R I Act base.snapshot s.state s.journal s.record s.validRevisions) := by
    refine Reach.run_keeps (I := fun s : Journaled S E G =>
      (s.Numbered ∧ base.nextRevisionID < s.nextRevisionID)
        ∧ ((∀ r ∈ s.validRevisions, r.id ≠ base.nextRevisionID)
          ∨ Trail R I Act base.snapshot s.state s.journal s.record s.validRevisions)) ?_ hrun
      ⟨⟨hnumbered.snapshot, Nat.lt_succ_self _⟩, .inr (.base (D.refl _))⟩
    rintro s s' hstep ⟨⟨hnum, hlt⟩, h⟩
    obtain ⟨hnum', hle⟩ := hnum.step hstep
    refine ⟨⟨hnum', hlt.trans_le hle⟩, ?_⟩
    cases hstep with
    | act hact => exact h.imp id fun h => .act h (D.trail_invariant h hI) hact (D.refl _)
    | snapshot =>
      refine h.imp (fun hgone => ?_) fun h => .snapshot h hnum
      exact List.forall_mem_cons.mpr ⟨hlt.ne', hgone⟩
    | @revert id s' hrev =>
      obtain ⟨r, hr, rfl⟩ := Option.map_eq_some_iff.mp hrev
      rcases h with hgone | h
      · exact .inl fun x hx => hgone x ((revertTo_spec hr).1 hx)
      · rcases D.trail_revert h hmarked id _ (D.refl _) with
          ⟨t, j', g', rs', heq, htrail⟩ | ⟨v, -, heq⟩ | heq
        · rw [heq] at hr
          cases hr
          exact .inr htrail
        · rw [heq] at hr
          exact .inl (gone_of_revert_base hnumbered hr)
        · rw [heq] at hr
          cases hr
  rcases hkeep.2 with hgone | htrail
  · obtain ⟨r, hr, hid⟩ := hvalid
    exact absurd hid (hgone r hr)
  · exact htrail

/-- **Reverts are exact.** A revert to a revision that is still valid leads to a state as good as the
one the revision was taken of, with the journal, the record and the revisions it had. -/
theorem revert_exact {base s : Journaled S E G} (hI : I base.state base.journal base.record)
    (hbase : base.Marked) (hnumbered : base.Numbered) (hrun : Runs undo Act base.snapshot s)
    (hvalid : ∃ r ∈ s.validRevisions, r.id = base.nextRevisionID) :
    ∃ t, s.revert undo base.nextRevisionID = some t ∧ R base.state t.state
      ∧ t.journal = base.journal ∧ t.record = base.record
      ∧ t.validRevisions = base.validRevisions := by
  have hmarked : base.snapshot.Marked := List.forall_mem_cons.mpr ⟨le_rfl, hbase⟩
  have hself : ∃ r ∈ base.snapshot.validRevisions, base.nextRevisionID ≤ r.id :=
    ⟨_, List.mem_cons_self, le_rfl⟩
  have htrail := D.trail_since hI hbase hnumbered hrun hvalid
  obtain ⟨v, hv, heq⟩ := (D.trail_revert_base htrail hmarked hself).2 _ (D.refl _)
  refine ⟨⟨v, base.journal, base.record, base.validRevisions, s.nextRevisionID⟩, ?_, hv, rfl, rfl,
    rfl⟩
  rw [revert, heq]
  exact congrArg (Option.map _) (revertTo_cons_self ..)

end Discipline

end Journaled
