import Limonata.NetCap.Keeper

/-!
# What a restricted address can send in any interval

The transfers of a chain with non-decreasing block times, and the log of those that the cap admitted.
The window of the accumulator is not a rolling one: it starts afresh with the first spend after it
expired, so a spend at the end of one window and one at the start of the next count separately.
The cap holds in every interval as long as a window never starts within `WindowSeconds` of an earlier
spend.
-/

namespace NetCap

open EncMempool (Bytes bytesOf)

/-! ## Timed amounts -/

/-- An amount that left an address. -/
structure Admitted where
  fromAddr : Bytes
  time : Int
  amount : Int
  deriving DecidableEq

/-- What left an address in the `w` seconds from `t₀` on. -/
def sentWithin (a : Bytes) (t₀ w : Int) (log : List Admitted) : Int :=
  ((log.filter fun e => e.fromAddr = a ∧ t₀ ≤ e.time ∧ e.time < t₀ + w).map Admitted.amount).sum

/-- What left an address. -/
def sent (a : Bytes) (log : List Admitted) : Int :=
  ((log.filter fun e => e.fromAddr = a).map Admitted.amount).sum

theorem sentWithin_append (a : Bytes) (t₀ w : Int) (xs ys : List Admitted) :
    sentWithin a t₀ w (xs ++ ys) = sentWithin a t₀ w xs + sentWithin a t₀ w ys := by
  simp [sentWithin]

theorem sent_append (a : Bytes) (xs ys : List Admitted) :
    sent a (xs ++ ys) = sent a xs + sent a ys := by
  simp [sent]

theorem sentWithin_cons (a : Bytes) (t₀ w : Int) (e : Admitted) (log : List Admitted) :
    sentWithin a t₀ w (e :: log)
      = (if e.fromAddr = a ∧ t₀ ≤ e.time ∧ e.time < t₀ + w then e.amount else 0)
        + sentWithin a t₀ w log := by
  unfold sentWithin
  rw [List.filter_cons]
  split_ifs with h h' h'
  · simp
  · exact absurd (of_decide_eq_true h) h'
  · exact absurd (decide_eq_true h') h
  · simp

theorem sent_cons (a : Bytes) (e : Admitted) (log : List Admitted) :
    sent a (e :: log) = (if e.fromAddr = a then e.amount else 0) + sent a log := by
  unfold sent
  rw [List.filter_cons]
  split_ifs with h h' h'
  · simp
  · exact absurd (of_decide_eq_true h) h'
  · exact absurd (decide_eq_true h') h
  · simp

theorem sentWithin_le_sent (a : Bytes) (t₀ w : Int) {log : List Admitted}
    (hpos : ∀ e ∈ log, 0 ≤ e.amount) : sentWithin a t₀ w log ≤ sent a log := by
  induction log with
  | nil => exact le_rfl
  | cons e log ih =>
    obtain ⟨he, hlog⟩ := List.forall_mem_cons.mp hpos
    have htail := ih hlog
    rw [sentWithin_cons, sent_cons]
    by_cases hfrom : e.fromAddr = a
    · by_cases htime : t₀ ≤ e.time ∧ e.time < t₀ + w
      · rw [if_pos ⟨hfrom, htime⟩, if_pos hfrom]
        omega
      · rw [if_neg (fun h => htime h.2), if_pos hfrom]
        omega
    · rw [if_neg (fun h => hfrom h.1), if_neg hfrom]
      omega

theorem sentWithin_eq_zero {a : Bytes} {t₀ w : Int} {log : List Admitted}
    (h : ∀ e ∈ log, e.fromAddr = a → ¬ (t₀ ≤ e.time ∧ e.time < t₀ + w)) :
    sentWithin a t₀ w log = 0 := by
  unfold sentWithin
  rw [List.filter_eq_nil_iff.mpr]
  · rfl
  · intro e he hin
    obtain ⟨hfrom, htime⟩ := of_decide_eq_true hin
    exact h e he hfrom htime

/-- Two stretches of a log that lie `w` seconds apart never meet in one interval, so a bound on each
bounds the whole. -/
theorem sentWithin_le_of_apart {a : Bytes} {w c : Int} {old cur : List Admitted}
    (hpos : ∀ e ∈ cur, 0 ≤ e.amount)
    (hapart : ∀ x ∈ old, x.fromAddr = a → ∀ y ∈ cur, y.fromAddr = a → x.time + w ≤ y.time)
    (hold : ∀ t₀, sentWithin a t₀ w old ≤ c) (hcur : sent a cur ≤ c) (t₀ : Int) :
    sentWithin a t₀ w (old ++ cur) ≤ c := by
  rw [sentWithin_append]
  by_cases hmeets : ∃ x ∈ old, x.fromAddr = a ∧ t₀ ≤ x.time ∧ x.time < t₀ + w
  · -- an old entry is in the interval, so the interval ends before the current stretch begins
    obtain ⟨x, hx, hfrom, hle, -⟩ := hmeets
    have hzero : sentWithin a t₀ w cur = 0 := by
      apply sentWithin_eq_zero
      intro y hy hyfrom htime
      have := hapart x hx hfrom y hy hyfrom
      omega
    rw [hzero, Int.add_zero]
    exact hold t₀
  · have hzero : sentWithin a t₀ w old = 0 :=
      sentWithin_eq_zero fun x hx hfrom htime => hmeets ⟨x, hx, hfrom, htime⟩
    rw [hzero, Int.zero_add]
    exact (sentWithin_le_sent a t₀ w hpos).trans hcur

/-! ## Delivered transfers -/

/-- A transfer that a block delivers: its context, its ends and its amount. -/
structure Transfer where
  ctx : Ctx
  fromAddr : Bytes
  toAddr : Bytes
  amount : Int

/-- The module's state with the time of the last block and the log of what the cap admitted. -/
structure Ledger where
  state : State
  now : Int
  admitted : List Admitted

namespace Ledger

/-- A chain that starts with no recorded spend. -/
def start (p : Params) (now : Int) : Ledger := ⟨⟨p, RecStore.empty⟩, now, []⟩

/-- Deliver a transfer. A rejected one changes nothing; an admitted one is logged if the cap applies
to it. -/
def deliver (l : Ledger) (t : Transfer) : Ledger :=
  match l.state.checkAndRecord t.ctx t.fromAddr t.toAddr t.amount with
  | .error _ => { l with now := t.ctx.blockTime }
  | .ok state =>
    { state
      now := t.ctx.blockTime
      admitted := l.admitted
        ++ if State.Capped t.ctx l.state.params t.fromAddr t.toAddr t.amount
          then [⟨t.fromAddr, t.ctx.blockTime, t.amount⟩] else [] }

/-- The transfers of a chain: outside `CheckTx`, at a block time that does not go back. -/
def Follows (l : Ledger) (t : Transfer) : Prop :=
  t.ctx.isCheckTx = false ∧ l.now ≤ t.ctx.blockTime

instance (l : Ledger) (t : Transfer) : Decidable (l.Follows t) :=
  inferInstanceAs (Decidable (_ ∧ _))

/-- A transfer that starts a new window of its sender comes `WindowSeconds` or more after every
earlier spend of it. -/
def RestartsApart (l : Ledger) (t : Transfer) : Prop :=
  l.state.restarts t.ctx.blockTime t.fromAddr →
    ∀ e ∈ l.admitted, e.fromAddr = t.fromAddr →
      e.time + l.state.params.windowSeconds ≤ t.ctx.blockTime

instance (l : Ledger) (t : Transfer) : Decidable (l.RestartsApart t) :=
  inferInstanceAs (Decidable (_ → _))

/-- The runs of a chain whose transfers are all allowed. -/
abbrev Runs (allow : Ledger → Transfer → Prop) : Ledger → Ledger → Prop :=
  Relation.ReflTransGen fun l l' => ∃ t, allow l t ∧ some (l.deliver t) = some l'

theorem deliver_cases {l : Ledger} {t : Transfer} (hcheck : t.ctx.isCheckTx = false) {c : Int}
    (hcap : l.state.params.capPerWindow = some c) :
    l.deliver t = { l with now := t.ctx.blockTime } ∨
    (0 < t.amount
      ∧ (l.state.currentWindow t.ctx.blockTime t.fromAddr).spent + t.amount ≤ c
      ∧ l.deliver t =
        { state := l.state.setSpend t.fromAddr
            ⟨(l.state.currentWindow t.ctx.blockTime t.fromAddr).windowStartUnix,
              (l.state.currentWindow t.ctx.blockTime t.fromAddr).spent + t.amount⟩
          now := t.ctx.blockTime
          admitted := l.admitted ++ [⟨t.fromAddr, t.ctx.blockTime, t.amount⟩] }) := by
  by_cases hcapped : State.Capped t.ctx l.state.params t.fromAddr t.toAddr t.amount
  · cases hres : l.state.checkAndRecord t.ctx t.fromAddr t.toAddr t.amount with
    | error err => exact .inl (by simp [deliver, hres])
    | ok s =>
      obtain ⟨hroom, rfl⟩ := State.checkAndRecord_capped hcheck hcapped hcap hres
      exact .inr ⟨hcapped.2.1, hroom, by simp [deliver, hres, hcapped]⟩
  · exact .inl (by simp [deliver, State.checkAndRecord_of_not_capped hcapped, hcapped])

/-! ## The cap in every interval -/

/-- What holds for an address while its windows start apart: its log is an old part and the spends
of the current window, `w` seconds or more after the old part. -/
structure Capping (p : Params) (c : Int) (a : Bytes) (l : Ledger) : Prop where
  params : l.state.params = p
  pos : ∀ e ∈ l.admitted, 0 ≤ e.amount
  within : ∀ t₀, sentWithin a t₀ p.windowSeconds l.admitted ≤ c
  split : ∃ old cur, l.admitted = old ++ cur
    ∧ sent a cur = (l.state.getSpend a).spent
    ∧ (∀ t₀, sentWithin a t₀ p.windowSeconds old ≤ c)
    ∧ (∀ x ∈ old, x.fromAddr = a → x.time + p.windowSeconds ≤ l.now)
    ∧ ∀ x ∈ old, x.fromAddr = a → ∀ y ∈ cur, y.fromAddr = a → x.time + p.windowSeconds ≤ y.time

variable {p : Params} {c : Int} {a : Bytes} {l : Ledger} {t : Transfer}

theorem capping_start (hc : 0 ≤ c) (now : Int) : Capping p c a (start p now) where
  params := rfl
  pos := by simp [start]
  within _ := hc
  split := ⟨[], [], rfl, rfl, fun _ => hc, by simp, by simp⟩

theorem Capping.split_at (h : Capping p c a l) (hfollows : l.Follows t)
    (hapart : l.RestartsApart t) (hfrom : t.fromAddr = a) :
    ∃ old cur, l.admitted = old ++ cur
      ∧ sent a cur = (l.state.currentWindow t.ctx.blockTime a).spent
      ∧ (∀ t₀, sentWithin a t₀ p.windowSeconds old ≤ c)
      ∧ (∀ x ∈ old, x.fromAddr = a → x.time + p.windowSeconds ≤ t.ctx.blockTime)
      ∧ ∀ x ∈ old, x.fromAddr = a → ∀ y ∈ cur, y.fromAddr = a →
          x.time + p.windowSeconds ≤ y.time := by
  subst hfrom
  by_cases hrestarts : l.state.restarts t.ctx.blockTime t.fromAddr
  · -- a new window: the whole log is old, and far enough back by `RestartsApart`
    refine ⟨l.admitted, [], (List.append_nil _).symm, ?_, h.within, ?_, by simp⟩
    · rw [State.currentWindow, if_pos hrestarts]
      rfl
    · rw [← h.params]
      exact hapart hrestarts
  · obtain ⟨old, cur, hlog, hspent, hold, hback, hsep⟩ := h.split
    refine ⟨old, cur, hlog, ?_, hold, ?_, hsep⟩
    · rw [State.currentWindow, if_neg hrestarts]
      exact hspent
    · intro x hx hxfrom
      exact (hback x hx hxfrom).trans hfollows.2

theorem Capping.deliver_other (h : Capping p c a l) (hfollows : l.Follows t) (hpos : 0 < t.amount)
    (hfrom : t.fromAddr ≠ a) (ws : WindowSpend) :
    Capping p c a
      { state := l.state.setSpend t.fromAddr ws
        now := t.ctx.blockTime
        admitted := l.admitted ++ [⟨t.fromAddr, t.ctx.blockTime, t.amount⟩] } := by
  obtain ⟨old, cur, hlog, hspent, hold, hback, hsep⟩ := h.split
  constructor
  · exact h.params
  · simpa using fun e he => he.elim (h.pos e) fun heq => heq ▸ hpos.le
  · intro t₀
    rw [sentWithin_append, sentWithin_cons, if_neg (fun hin => hfrom hin.1)]
    simpa [sentWithin] using h.within t₀
  · refine ⟨old, cur ++ [⟨t.fromAddr, t.ctx.blockTime, t.amount⟩], ?_, ?_, hold, ?_, ?_⟩
    · rw [hlog, List.append_assoc]
    · rw [sent_append, sent_cons, if_neg hfrom, hspent, State.getSpend_setSpend,
        if_neg (Ne.symm hfrom)]
      simp [sent]
    · exact fun x hx hxfrom => (hback x hx hxfrom).trans hfollows.2
    · intro x hx hxfrom y hy hyfrom
      rcases List.mem_append.mp hy with hy | hy
      · exact hsep x hx hxfrom y hy hyfrom
      · rw [List.mem_singleton.mp hy] at hyfrom
        exact absurd hyfrom hfrom

theorem Capping.deliver (h : Capping p c a l) (hcap : p.capPerWindow = some c)
    (hfollows : l.Follows t) (hapart : l.RestartsApart t) : Capping p c a (l.deliver t) := by
  rw [← h.params] at hcap
  rcases deliver_cases hfollows.1 hcap with heq | ⟨hpos, hroom, heq⟩
  · -- nothing was admitted
    rw [heq]
    obtain ⟨old, cur, hlog, hspent, hold, hback, hsep⟩ := h.split
    exact ⟨h.params, h.pos, h.within, old, cur, hlog, hspent, hold,
      fun x hx hxfrom => (hback x hx hxfrom).trans hfollows.2, hsep⟩
  rw [heq]
  by_cases hfrom : t.fromAddr = a
  · obtain ⟨old, cur, hlog, hspent, hold, hback, hsep⟩ := h.split_at hfollows hapart hfrom
    subst hfrom
    have hspent' : sent t.fromAddr (cur ++ [⟨t.fromAddr, t.ctx.blockTime, t.amount⟩])
        = (l.state.currentWindow t.ctx.blockTime t.fromAddr).spent + t.amount := by
      rw [sent_append, sent_cons, if_pos rfl, hspent]
      simp [sent]
    have hlog' : l.admitted ++ [⟨t.fromAddr, t.ctx.blockTime, t.amount⟩]
        = old ++ (cur ++ [⟨t.fromAddr, t.ctx.blockTime, t.amount⟩]) := by
      rw [hlog, List.append_assoc]
    have hpos' : ∀ e ∈ l.admitted ++ [⟨t.fromAddr, t.ctx.blockTime, t.amount⟩], 0 ≤ e.amount := by
      simpa using fun e he => he.elim (h.pos e) fun heq => heq ▸ hpos.le
    have hsep' : ∀ x ∈ old, x.fromAddr = t.fromAddr →
        ∀ y ∈ cur ++ [⟨t.fromAddr, t.ctx.blockTime, t.amount⟩], y.fromAddr = t.fromAddr →
          x.time + p.windowSeconds ≤ y.time := by
      intro x hx hxfrom y hy hyfrom
      rcases List.mem_append.mp hy with hy | hy
      · exact hsep x hx hxfrom y hy hyfrom
      · rw [List.mem_singleton.mp hy]
        exact hback x hx hxfrom
    constructor
    · exact h.params
    · exact hpos'
    · rw [hlog'] at hpos' ⊢
      apply sentWithin_le_of_apart (fun e he => hpos' e (List.mem_append_right _ he)) hsep' hold
      rw [hspent']
      exact hroom
    · refine ⟨old, _, hlog', ?_, hold, hback, hsep'⟩
      rw [hspent', State.getSpend_setSpend, if_pos rfl]
  · exact h.deliver_other hfollows hpos hfrom _

theorem capAmt_nonneg (hvalid : p.validate = .ok ()) (henabled : p.enabled = true)
    (hcap : p.capPerWindow = some c) : 0 ≤ c := by
  unfold Params.validate at hvalid
  simp only [henabled, hcap, Bool.true_eq_false, if_false] at hvalid
  split_ifs at hvalid with _ hneg
  exact not_lt.mp hneg

/-- While no window of an address starts within `WindowSeconds` of an earlier spend of it, no
interval of `WindowSeconds` sees more than the cap leave the address. -/
theorem sentWithin_le_cap (p : Params) (c : Int) (hvalid : p.validate = .ok ())
    (henabled : p.enabled = true) (hcap : p.capPerWindow = some c) (now : Int) (l : Ledger)
    (hrun : Runs (fun l t => l.Follows t ∧ l.RestartsApart t) (start p now) l) (a : Bytes)
    (t₀ : Int) : sentWithin a t₀ p.windowSeconds l.admitted ≤ c := by
  have hstep : ∀ l l' : Ledger,
      (∃ t, (l.Follows t ∧ l.RestartsApart t) ∧ some (l.deliver t) = some l') →
        Capping p c a l → Capping p c a l' := by
    rintro l l' ⟨t, ⟨hfollows, hapart⟩, hdeliver⟩ h
    cases hdeliver
    exact h.deliver hcap hfollows hapart
  have hstart : Capping p c a (start p now) :=
    capping_start (capAmt_nonneg hvalid henabled hcap) now
  exact (Reach.run_keeps hstep hrun hstart).within t₀

/-! A team address under a cap of 1000 in 100 seconds. -/

def team : Bytes := bytesOf "team"

def market : Bytes := bytesOf "market"

def teamParams : Params := ⟨true, [team], [], 100, some 1000⟩

/-- The team sends to the market in a block at the given time. -/
def sells (time amount : Int) : Transfer := ⟨⟨time, false, fun _ => false⟩, team, market, amount⟩

/-- Two windows that start far apart, each used up. -/
theorem sentWithin_le_cap_team :
    ∃ l, (Runs (fun l t => l.Follows t ∧ l.RestartsApart t) (start teamParams 1000) l
      ∧ sent team l.admitted = 2000) ∧ ∀ t₀, sentWithin team t₀ 100 l.admitted ≤ 1000 := by
  obtain ⟨l, hrun, hsent⟩ :
      ∃ l, Runs (fun l t => l.Follows t ∧ l.RestartsApart t) (start teamParams 1000) l
        ∧ sent team l.admitted = 2000 :=
    Reach.exists_run [sells 1000 400, sells 1099 600, sells 1200 1000] (by decide +kernel)
  exact ⟨l, ⟨hrun, hsent⟩, sentWithin_le_cap teamParams 1000 rfl rfl rfl 1000 l hrun team⟩

/-- A window that is used up in its last second is followed by a new one in the next: 1999 leave the
address within two seconds. -/
theorem sentWithin_exceeds_cap :
    teamParams.validate = .ok () ∧ teamParams.enabled = true
      ∧ teamParams.capPerWindow = some 1000 ∧ teamParams.windowSeconds = 100
      ∧ ∃ l, Runs Follows (start teamParams 1000) l ∧ sentWithin team 1001 100 l.admitted = 1999 := by
  refine ⟨rfl, rfl, rfl, rfl, ?_⟩
  exact Reach.exists_run [sells 1000 1, sells 1099 999, sells 1100 1000] (by decide +kernel)

end Ledger

end NetCap
