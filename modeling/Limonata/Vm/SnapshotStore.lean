import Limonata.EncMempool.Types
import Limonata.Lib.CacheStack
import Limonata.Lib.Reach

/-!
# The multistore of precompile calls

`snapshotmulti.Store` is the multistore of the context that a precompile hands to native code: one
stack of caches for each store, moved in step. Branching it, as `CacheContext` does, takes a snapshot
and returns the same store, so a branch is no branch: what it writes is in the parent at once, and its
write function flushes the whole stack into the outer context of the transaction.

The branches that native code expects are a tree of caches. The two agree as long as branches are only
read.
-/

namespace Vm

open EncMempool (Bytes bytesOf)

/-- What a multistore holds, by store and key. -/
abbrev Contents (ι : Type) := ι → Bytes → Option Bytes

/-- Write one key; `none` deletes it. -/
def Contents.set {ι : Type} [DecidableEq ι] (w : Contents ι) (i : ι) (key : Bytes)
    (value : Option Bytes) : Contents ι :=
  Function.update w i (Function.update (w i) key value)

/-- `snapshotmulti.Store`: a stack of caches for each store key, all of the height `head`. -/
structure SnapshotMultiStore (ι : Type) where
  stores : ι → CacheStack (Bytes → Option Bytes)
  head : Nat
  lockstep : ∀ i, (stores i).layers.length = head

namespace SnapshotMultiStore

variable {ι : Type}

/-- `NewStore` over the stores of the outer context. -/
def new (outer : Contents ι) : SnapshotMultiStore ι where
  stores i := ⟨outer i, []⟩
  head := 0
  lockstep _ := rfl

/-- What `GetKVStore` reads. -/
def current (m : SnapshotMultiStore ι) : Contents ι := fun i => (m.stores i).current

/-- A write to one store. -/
def set [DecidableEq ι] (m : SnapshotMultiStore ι) (i : ι) (key : Bytes) (value : Option Bytes) :
    SnapshotMultiStore ι where
  stores := Function.update m.stores i
    ((m.stores i).modify fun s => Function.update s key value)
  head := m.head
  lockstep j := by
    by_cases hj : j = i
    · subst hj
      simp [m.lockstep]
    · simp [hj, m.lockstep]

/-- `Snapshot`: a new cache on every stack. Its index is the old head. -/
def snapshot (m : SnapshotMultiStore ι) : SnapshotMultiStore ι where
  stores i := (m.stores i).snapshot
  head := m.head + 1
  lockstep i := by rw [CacheStack.length_snapshot, m.lockstep]

/-- `RevertToSnapshot`; `none` is the panic of an index that is out of bounds. -/
def revertToSnapshot (m : SnapshotMultiStore ι) (target : Nat) : Option (SnapshotMultiStore ι) :=
  if h : target < m.head then some
    { stores := fun i => ⟨(m.stores i).initial, (m.stores i).layers.drop (m.head - target)⟩
      head := target
      lockstep := fun i => by
        rw [List.length_drop, m.lockstep]
        omega }
  else none

/-- `CacheMultiStore` snapshots the store and returns it. -/
def cacheMultiStore (m : SnapshotMultiStore ι) : SnapshotMultiStore ι := m.snapshot

/-- `Write`: every stack is committed, and what it held is in the outer context. -/
def write (m : SnapshotMultiStore ι) : Contents ι × SnapshotMultiStore ι :=
  (m.current, ⟨fun i => (m.stores i).commit, 0, fun _ => rfl⟩)

variable (m : SnapshotMultiStore ι)

@[simp] theorem current_new (outer : Contents ι) : (new outer).current = outer := rfl

@[simp] theorem current_snapshot : m.snapshot.current = m.current := rfl

theorem current_set [DecidableEq ι] (i : ι) (key : Bytes) (value : Option Bytes) :
    (m.set i key value).current = m.current.set i key value := by
  funext j
  unfold current set Contents.set
  by_cases hj : j = i
  · subst hj
    simp
  · simp [hj]

/-- A revert gives the contents `w` back. -/
def Restores (target : Nat) (w : Contents ι) : Prop :=
  ∃ m', m.revertToSnapshot target = some m' ∧ m'.current = w

theorem restores_iff {target : Nat} {w : Contents ι} :
    m.Restores target w ↔ target < m.head
      ∧ ∀ i, ((m.stores i).layers.drop (m.head - target)).headD (m.stores i).initial = w i := by
  unfold Restores revertToSnapshot
  by_cases hlt : target < m.head
  · rw [dif_pos hlt]
    constructor
    · rintro ⟨m', hm', rfl⟩
      cases hm'
      exact ⟨hlt, fun _ => rfl⟩
    · rintro ⟨-, hw⟩
      exact ⟨_, rfl, funext hw⟩
  · simp [hlt]

theorem restores_snapshot : m.snapshot.Restores m.head m.current := by
  rw [restores_iff]
  refine ⟨Nat.lt_succ_self _, fun i => ?_⟩
  show (((m.stores i).current :: (m.stores i).layers).drop (m.head + 1 - m.head)).headD _ = _
  rw [Nat.add_sub_cancel_left]
  rfl

theorem Restores.snapshot {target : Nat} {w : Contents ι} (h : m.Restores target w) :
    m.snapshot.Restores target w := by
  rw [restores_iff] at h ⊢
  refine ⟨h.1.trans (Nat.lt_succ_self _), fun i => ?_⟩
  have hdrop : m.snapshot.head - target = (m.head - target) + 1 := by
    have := h.1
    show m.head + 1 - target = _
    omega
  rw [hdrop]
  exact h.2 i

theorem Restores.set [DecidableEq ι] {target : Nat} {w : Contents ι} (h : m.Restores target w) (i : ι) (key : Bytes)
    (value : Option Bytes) : (m.set i key value).Restores target w := by
  rw [restores_iff] at h ⊢
  refine ⟨h.1, fun j => ?_⟩
  by_cases hj : j = i
  · subst hj
    have hlt : target < (m.stores j).layers.length := by
      rw [m.lockstep]
      exact h.1
    have hrev := CacheStack.revertTo_modify (m.stores j) (fun s => Function.update s key value) hlt
    have hmod : (m.set j key value).stores j
        = (m.stores j).modify fun s => Function.update s key value := by simp [SnapshotMultiStore.set]
    unfold CacheStack.revertTo at hrev
    rw [CacheStack.length_modify, if_pos hlt, if_pos hlt, Option.some.injEq, m.lockstep] at hrev
    have hcur := congrArg CacheStack.current hrev
    rw [hmod]
    exact hcur.trans (h.2 j)
  · have hsame : (m.set i key value).stores j = m.stores j := by simp [SnapshotMultiStore.set, hj]
    rw [hsame]
    exact h.2 j

theorem Restores.revert {target older : Nat} {w : Contents ι} {m' : SnapshotMultiStore ι}
    (h : m.Restores older w) (hrev : m.revertToSnapshot target = some m') (hlt : older < target) :
    m'.Restores older w := by
  unfold revertToSnapshot at hrev
  split_ifs at hrev with hhead
  cases hrev
  rw [restores_iff] at h ⊢
  refine ⟨hlt, fun i => ?_⟩
  have hdrop : m.head - target + (target - older) = m.head - older := by omega
  simp only [List.drop_drop, hdrop]
  exact h.2 i

end SnapshotMultiStore

/-! ## Branches as native code expects them -/

/-- A write of native code: store, key and value. -/
abbrev KeyWrite (ι : Type) := ι × Bytes × Option Bytes

/-- The contexts of a native action as a tree of caches: the contents of the context it was handed,
and for each branch its parent and what was written through it and not written back. The contexts are
numbered in the order they were made, from the first, number 0. -/
structure CacheTree (ι : Type) where
  root : Contents ι
  branches : List (Nat × List (KeyWrite ι))

namespace CacheTree

variable {ι : Type} [DecidableEq ι]

def apply (w : Contents ι) (writes : List (KeyWrite ι)) : Contents ι :=
  writes.foldl (fun w kw => w.set kw.1 kw.2.1 kw.2.2) w

/-- What is read through each context. -/
def views (t : CacheTree ι) : List (Contents ι) :=
  t.branches.foldl (fun vs b => vs ++ [apply (vs.getD b.1 t.root) b.2]) [t.root]

def view (t : CacheTree ι) (c : Nat) : Contents ι := t.views.getD c t.root

def branch (t : CacheTree ι) (c : Nat) : CacheTree ι :=
  { t with branches := t.branches ++ [(c, [])] }

/-- Write through a context. -/
def set (t : CacheTree ι) (c : Nat) (kw : KeyWrite ι) : CacheTree ι :=
  match c with
  | 0 => { t with root := t.root.set kw.1 kw.2.1 kw.2.2 }
  | c + 1 => { t with branches := t.branches.modify c fun b => (b.1, b.2 ++ [kw]) }

/-- The write function of a branch: its writes go to its parent. -/
def writeBranch (t : CacheTree ι) (c : Nat) : CacheTree ι :=
  match c with
  | 0 => t
  | c + 1 =>
    match t.branches[c]? with
    | none => t
    | some (parent, writes) =>
      writes.foldl (fun t kw => t.set parent kw)
        { t with branches := t.branches.modify c fun b => (b.1, []) }

end CacheTree

/-! ## Native actions -/

/-- A native action in progress: the outer context of the transaction, the multistore of its context,
the tree of contexts it expects, and the snapshots taken earlier with what the store held then. -/
structure NativeAction (ι : Type) where
  outer : Contents ι
  store : SnapshotMultiStore ι
  tree : CacheTree ι
  taken : List (Nat × Contents ι)

inductive BranchOp (ι : Type) where
  /-- `CacheContext` on one of the contexts. -/
  | branch (c : Nat)
  | set (c : Nat) (kw : KeyWrite ι)
  /-- Call the write function of a branch. -/
  | writeBranch (c : Nat)
  /-- The snapshot of a precompile call. -/
  | snapshot
  /-- The revert of a precompile call, and with it of the contexts made since. -/
  | revert (id : Nat) (w : Contents ι)

namespace NativeAction

variable {ι : Type} [DecidableEq ι]

/-- The start of the transaction's first precompile call. -/
def start (outer : Contents ι) : NativeAction ι := ⟨outer, .new outer, ⟨outer, []⟩, []⟩

/-- One operation; every context is the one store. `none` is a panic or an operation on a context or a
snapshot that is not there. -/
def step (n : NativeAction ι) : BranchOp ι → Option (NativeAction ι)
  | .branch c =>
    if n.tree.branches.length < c then none
    else some { n with store := n.store.cacheMultiStore, tree := n.tree.branch c }
  | .set c kw =>
    if n.tree.branches.length < c then none
    else some { n with store := n.store.set kw.1 kw.2.1 kw.2.2, tree := n.tree.set c kw }
  | .writeBranch c =>
    if n.tree.branches.length < c ∨ c = 0 then none
    else some { n with
      outer := n.store.write.1
      store := n.store.write.2
      tree := n.tree.writeBranch c }
  | .snapshot =>
    some { n with
      store := n.store.snapshot
      taken := (n.store.head, n.tree.root) :: n.taken }
  | .revert id w =>
    match n.store.revertToSnapshot id with
    | none => none
    | some store =>
      some { n with store, tree := ⟨w, []⟩, taken := n.taken.filter fun s => s.1 < id }

/-- A run of operations; a revert is to a snapshot that was taken. -/
abbrev Runs (allow : NativeAction ι → BranchOp ι → Prop) : NativeAction ι → NativeAction ι → Prop :=
  Relation.ReflTransGen fun n n' => ∃ op, allow n op ∧ n.step op = some n'

/-- Reverts name a snapshot with what was held then. -/
def Sound (n : NativeAction ι) : BranchOp ι → Prop
  | .revert id w => (id, w) ∈ n.taken
  | _ => True

/-- Branches are only read. -/
def ReadOnly : BranchOp ι → Prop
  | .set c _ => c = 0
  | .writeBranch _ => False
  | _ => True

/-- Every context reads what the tree of caches holds, nothing has reached the outer context, and
every earlier snapshot can be reverted to, which gives back what was held then. -/
structure Isolated (outer : Contents ι) (n : NativeAction ι) : Prop where
  views : ∀ c ≤ n.tree.branches.length, n.store.current = n.tree.view c
  outer : n.outer = outer
  snapshots : ∀ s ∈ n.taken, n.store.Restores s.1 s.2

/-- What a run keeps whose branches are only read: nothing was written through a branch, so every
branch reads as the first context does. -/
structure OnlyRead (outer : Contents ι) (n : NativeAction ι) : Prop where
  unwritten : ∀ b ∈ n.tree.branches, b.2 = []
  root : n.store.current = n.tree.root
  outer : n.outer = outer
  snapshots : ∀ s ∈ n.taken, n.store.Restores s.1 s.2

variable {outer : Contents ι} {n n' : NativeAction ι}

theorem OnlyRead.view (h : OnlyRead outer n) (c : Nat) : n.tree.view c = n.tree.root := by
  have hviews : ∀ v ∈ n.tree.views, v = n.tree.root := by
    unfold CacheTree.views
    refine Reach.foldl_keeps (I := fun vs : List (Contents ι) => ∀ v ∈ vs, v = n.tree.root) ?_ (by simp)
    -- a branch without writes reads what its parent reads, and that is the root
    intro vs b hb hvs v hv
    rcases List.mem_append.mp hv with hv | hv
    · exact hvs v hv
    · rw [List.mem_singleton.mp hv, h.unwritten b hb]
      show vs.getD b.1 n.tree.root = n.tree.root
      rw [List.getD_eq_getElem?_getD]
      cases hget : vs[b.1]? with
      | none => rfl
      | some w => exact hvs w (List.mem_of_getElem? hget)
  unfold CacheTree.view
  rw [List.getD_eq_getElem?_getD]
  cases hget : n.tree.views[c]? with
  | none => rfl
  | some w => exact hviews w (List.mem_of_getElem? hget)

theorem OnlyRead.isolated (h : OnlyRead outer n) : Isolated outer n where
  views c _ := h.root.trans (h.view c).symm
  outer := h.outer
  snapshots := h.snapshots

theorem OnlyRead.step (h : OnlyRead outer n) {op : BranchOp ι} (hsound : n.Sound op)
    (hread : ReadOnly op) (hstep : n.step op = some n') : OnlyRead outer n' := by
  cases op with
  | branch c =>
    simp only [NativeAction.step] at hstep
    split_ifs at hstep
    cases hstep
    refine ⟨?_, h.root, h.outer, fun s hs => (h.snapshots s hs).snapshot⟩
    intro b hb
    rcases List.mem_append.mp hb with hb | hb
    · exact h.unwritten b hb
    · rw [List.mem_singleton.mp hb]
  | set c kw =>
    obtain rfl : c = 0 := hread
    simp only [NativeAction.step] at hstep
    split_ifs at hstep
    cases hstep
    refine ⟨h.unwritten, ?_, h.outer, fun s hs => (h.snapshots s hs).set _ _ _ _⟩
    rw [SnapshotMultiStore.current_set, h.root]
    rfl
  | writeBranch c => exact hread.elim
  | snapshot =>
    cases hstep
    refine ⟨h.unwritten, h.root, h.outer, List.forall_mem_cons.mpr ⟨?_, ?_⟩⟩
    · rw [← h.root]
      exact n.store.restores_snapshot
    · exact fun s hs => (h.snapshots s hs).snapshot
  | revert id w =>
    have hrestores := h.snapshots (id, w) hsound
    obtain ⟨m, hm, hcurrent⟩ := hrestores
    simp only [NativeAction.step, hm] at hstep
    cases hstep
    refine ⟨by simp, hcurrent, h.outer, fun s hs => ?_⟩
    obtain ⟨hs, hlt⟩ := List.mem_filter.mp hs
    exact (h.snapshots s hs).revert n.store hm (of_decide_eq_true hlt)

/-- Branches that are only read are isolated. -/
theorem branches_isolated (outer : Contents ι) (n : NativeAction ι)
    (hrun : Runs (fun n op => n.Sound op ∧ ReadOnly op) (start outer) n) : n.Isolated outer := by
  have hstart : OnlyRead outer (start outer) := ⟨by simp [start], rfl, rfl, by simp [start]⟩
  have hstep : ∀ n n' : NativeAction ι,
      (∃ op, (n.Sound op ∧ ReadOnly op) ∧ n.step op = some n') →
        OnlyRead outer n → OnlyRead outer n' := by
    rintro n n' ⟨op, ⟨hsound, hread⟩, hstep⟩ h
    exact h.step hsound hread hstep
  exact (Reach.run_keeps hstep hrun hstart).isolated

/-! One store, an empty outer context, and two keys. -/

def keyA : Bytes := bytesOf "a"

def keyB : Bytes := bytesOf "b"

def empty : Contents Unit := fun _ _ => none

/-- No revert. -/
def Forward (op : BranchOp Unit) : Bool :=
  match op with
  | .revert _ _ => false
  | _ => true

theorem exists_forward (allow : BranchOp Unit → Prop) [DecidablePred allow]
    (ops : List (BranchOp Unit)) {P : NativeAction Unit → Prop} [DecidablePred P]
    (h : (Reach.play (fun _ op => Forward op = true ∧ allow op) step (start empty) ops).any
      (fun n => P n) = true) :
    ∃ n, Runs (fun n op => n.Sound op ∧ allow op) (start empty) n ∧ P n := by
  obtain ⟨n, hrun, hP⟩ := Reach.exists_run ops h
  refine ⟨n, Relation.ReflTransGen.mono ?_ _ _ hrun, hP⟩
  rintro n n' ⟨op, ⟨hforward, hallow⟩, hstep⟩
  refine ⟨op, ⟨?_, hallow⟩, hstep⟩
  cases op with
  | revert id w => cases hforward
  | _ => trivial

instance : DecidablePred (ReadOnly : BranchOp Unit → Prop)
  | .set c _ => inferInstanceAs (Decidable (c = 0))
  | .writeBranch _ => .isFalse id
  | .branch _ | .snapshot | .revert .. => .isTrue trivial

/-- A branch that reads what its parent wrote. -/
theorem branches_isolated_read :
    ∃ n, (Runs (fun n op => n.Sound op ∧ ReadOnly op) (start empty) n
      ∧ n.tree.branches.length = 1 ∧ n.tree.view 1 () keyA = some keyB) ∧ n.Isolated empty := by
  obtain ⟨n, hrun, hP⟩ : ∃ n, Runs (fun n op => n.Sound op ∧ ReadOnly op) (start empty) n
      ∧ n.tree.branches.length = 1 ∧ n.tree.view 1 () keyA = some keyB :=
    exists_forward ReadOnly [.snapshot, .branch 0, .set 0 ((), keyA, some keyB)] (by decide +kernel)
  exact ⟨n, ⟨hrun, hP⟩, branches_isolated empty n hrun⟩

/-- A write through a branch is in the parent at once, and stays there if the branch is dropped. The
write function of a branch flushes the parent's own writes to the outer context, and the snapshot of
the precompile call can no longer be reverted to. -/
theorem branches_not_isolated :
    (∃ n, Runs (fun n op => n.Sound op ∧ True) (start empty) n
      ∧ n.store.current () keyB = some keyB ∧ n.tree.view 0 () keyB = none)
    ∧ ∃ n, Runs (fun n op => n.Sound op ∧ True) (start empty) n
      ∧ n.outer () keyA = some keyA ∧ n.taken.map Prod.fst = [0]
      ∧ (n.store.revertToSnapshot 0).isNone = true := by
  constructor
  · exact exists_forward (fun _ => True)
      [.snapshot, .branch 0, .set 1 ((), keyB, some keyB)] (by decide +kernel)
  · exact exists_forward (fun _ => True)
      [.snapshot, .set 0 ((), keyA, some keyA), .branch 0, .set 1 ((), keyB, some keyB),
        .writeBranch 1] (by decide +kernel)

end NativeAction

end Vm
