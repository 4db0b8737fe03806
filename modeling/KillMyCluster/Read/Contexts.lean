import KillMyCluster.Raft.Replicate
import KillMyCluster.Raft.Persist
import Mathlib.Order.Monotone.Defs

/-! The contexts of the callers in one batch of reads. `serveReadBatch` confirms leadership and
waits for the applier on one context, the first that is not nil, and the answer is everyone's. Time
is explicit here: the batcher and the callers look at the world at moments 0, 1, 2, …, and what they
see there (the node, the replies to the heartbeats) depends on the time alone. -/

namespace KMC

/-- The branch that a `select` takes; one that is not ready is a wait. -/
inductive Select where
  | ctx
  | stop
  | finished
  | tick
deriving DecidableEq

/-- What surrounds a batch. The times are nanoseconds. -/
structure Scene where
  /-- The peers of the node, which never change. -/
  peers : List ℕ
  node : ℕ → Node
  /-- Whether `readLeaseUntil` is ahead. -/
  lease : ℕ → Bool
  /-- When the heartbeat to a peer comes back, and whether the peer acknowledges the term. -/
  reply : ℕ → Option (ℕ × Bool)
  /-- The time of a moment. -/
  now : ℕ → ℕ
  mono : Monotone now
  pick : ℕ → Select
  /-- The same for the callers, by their contexts. -/
  hear : ℕ → ℕ → Select

/-- Whether a context that is cancelled then, if at all, is done by a time. -/
def Expired (cut : Option ℕ) (time : ℕ) : Prop := ∃ τ ∈ cut, τ ≤ time

instance (cut : Option ℕ) (time : ℕ) : Decidable (Expired cut time) :=
  inferInstanceAs (Decidable (∃ τ ∈ cut, τ ≤ time))

theorem not_expired_none (time : ℕ) : ¬ Expired none time := by
  rintro ⟨τ, hτ, -⟩
  cases hτ

theorem Expired.mono {cut : Option ℕ} {t u : ℕ} (h : Expired cut t) (hle : t ≤ u) :
    Expired cut u := by
  obtain ⟨τ, hτ, ht⟩ := h
  exact ⟨τ, hτ, ht.trans hle⟩

/-! ## The batcher -/

inductive Serving where
  | start
  | confirming (term readIndex : ℕ)
  /-- At the head of the loop in `confirmLeadership`, and at its `select`. -/
  | polling (term readIndex : ℕ)
  | selecting (term readIndex : ℕ)
  | confirmed (term readIndex : ℕ)
  | applying (readIndex : ℕ)
  /-- At the head of the loop in `WaitApplied`, and at its `select`. -/
  | waiting (readIndex deadline : ℕ)
  | pausing (readIndex deadline : ℕ)
  | answered (index : ℕ) (ok : Bool)
deriving DecidableEq

def waitAppliedTimeout : ℕ := 5000000000

namespace Scene

def look (sc : Scene) (i : ℕ) : Node := sc.node (sc.now i)

def majority (sc : Scene) : ℕ := (sc.peers.length + 1) / 2 + 1

/-- The heartbeat has come back as an acknowledgement, before its context was cancelled. -/
def Acked (sc : Scene) (cut : Option ℕ) (time peer : ℕ) : Prop :=
  ∃ t, sc.reply peer = some (t, true) ∧ t ≤ time ∧ ¬ Expired cut t

instance (sc : Scene) (cut : Option ℕ) (time peer : ℕ) : Decidable (sc.Acked cut time peer) :=
  decidable_of_iff (∃ x ∈ sc.reply peer, x.2 = true ∧ x.1 ≤ time ∧ ¬ Expired cut x.1) <| by
    simp [Acked]

def acks (sc : Scene) (cut : Option ℕ) (time : ℕ) : ℕ :=
  1 + sc.peers.countP fun peer => sc.Acked cut time peer

/-- All heartbeats are back, by a reply or by the context. -/
def Returned (sc : Scene) (cut : Option ℕ) (time : ℕ) : Prop :=
  Expired cut time ∨ ∀ peer ∈ sc.peers, ∃ x ∈ sc.reply peer, x.1 ≤ time

instance (sc : Scene) (cut : Option ℕ) (time : ℕ) : Decidable (sc.Returned cut time) :=
  inferInstanceAs (Decidable (_ ∨ _))

def serve (sc : Scene) (cut : Option ℕ) (i : ℕ) : Serving → Serving
  | .start =>
    match (sc.look i).serveReadBatch with
    | none => .answered 0 false
    | some (term, readIndex) =>
      if sc.lease (sc.now i) then .applying readIndex else .confirming term readIndex
  | .confirming term readIndex =>
    if (sc.look i).leads term then
      if sc.peers = [] then .confirmed term readIndex else .polling term readIndex
    else .answered 0 false
  | .polling term readIndex =>
    if sc.majority ≤ sc.acks cut (sc.now i) then .confirmed term readIndex
    else .selecting term readIndex
  | .selecting term readIndex =>
    match sc.pick i with
    | .ctx =>
      if Expired cut (sc.now i) then .answered 0 false else .polling term readIndex
    | .stop => if (sc.look i).stopped then .answered 0 false else .polling term readIndex
    | .finished =>
      if sc.Returned cut (sc.now i) then
        if sc.majority ≤ sc.acks cut (sc.now i) then .confirmed term readIndex
        else .answered 0 false
      else .polling term readIndex
    | .tick => .polling term readIndex
  | .confirmed term readIndex =>
    match (sc.look i).readAfterRound term readIndex with
    | some index => .applying index
    | none => .answered 0 false
  | .applying readIndex =>
    if readIndex ≤ (sc.look i).lastApplied then .answered readIndex true
    else .waiting readIndex (sc.now i + waitAppliedTimeout)
  | .waiting readIndex deadline =>
    if (sc.look i).stopped = false ∧ readIndex ≤ (sc.look i).lastApplied then
      .answered readIndex true
    else if (sc.look i).stopped ∨ Expired cut (sc.now i) ∨ deadline < sc.now i then
      .answered 0 false
    else .pausing readIndex deadline
  | .pausing readIndex deadline =>
    match sc.pick i with
    | .ctx =>
      if Expired cut (sc.now i) then .answered 0 false else .waiting readIndex deadline
    | .stop => if (sc.look i).stopped then .answered 0 false else .waiting readIndex deadline
    | _ => .waiting readIndex deadline
  | .answered index ok => .answered index ok

def served (sc : Scene) (cut : Option ℕ) : ℕ → Serving
  | 0 => .start
  | i + 1 => sc.serve cut i (sc.served cut i)

end Scene

/-! ## The callers -/

/-- What the call of `ReadIndex` has returned, if anything. -/
inductive Caller where
  | pending
  | returned (index : ℕ) (ok : Bool)
deriving DecidableEq

/-- The context that the batch is served on; `none` is the background. -/
def batchContext (batch : List (Option ℕ)) : Option ℕ := batch.findSome? id

namespace Scene

def wait (sc : Scene) (cut : Option ℕ) (me i : ℕ) (serving : Serving) : Caller → Caller
  | .pending =>
    match sc.hear me i with
    | .ctx => if Expired cut (sc.now i) then .returned 0 false else .pending
    | .stop => if (sc.look i).stopped then .returned 0 false else .pending
    | .finished =>
      match serving with
      | .answered index ok => .returned index ok
      | _ => .pending
    | .tick => .pending
  | .returned index ok => .returned index ok

/-- The caller with context `me` at a moment, where `cancel` says when each context is cancelled. -/
def caller (sc : Scene) (batch : List (Option ℕ)) (cancel : ℕ → Option ℕ) (me : ℕ) : ℕ → Caller
  | 0 => .pending
  | i + 1 =>
    sc.wait (cancel me) me i (sc.served ((batchContext batch).bind cancel) i)
      (sc.caller batch cancel me i)

/-! ## A context that stays live -/

variable {sc : Scene} {cut : Option ℕ} {i t u index : ℕ} {ph : Serving} {ok : Bool}

theorem acks_live {time : ℕ} (h : ¬ Expired cut time) : sc.acks cut time = sc.acks none time := by
  unfold acks
  congr 1
  refine List.countP_congr fun peer _ => ?_
  rw [decide_eq_true_iff, decide_eq_true_iff]
  constructor
  · rintro ⟨t, hr, ht, -⟩
    exact ⟨t, hr, ht, not_expired_none t⟩
  · rintro ⟨t, hr, ht, -⟩
    exact ⟨t, hr, ht, fun hx => h (hx.mono ht)⟩

theorem returned_live {time : ℕ} (h : ¬ Expired cut time) :
    sc.Returned cut time ↔ sc.Returned none time := by
  simp [Returned, h, not_expired_none]

theorem serve_live (h : ¬ Expired cut (sc.now i)) (ph : Serving) :
    sc.serve cut i ph = sc.serve none i ph := by
  cases ph <;> simp only [serve, acks_live h, returned_live h, h, not_expired_none]

/-- While its context is live, the batch is served as if it had none. -/
theorem served_live (h : ∀ j < i, ¬ Expired cut (sc.now j)) :
    sc.served cut i = sc.served none i := by
  induction i with
  | zero => rfl
  | succ i ih =>
    have hprev := ih fun j hj => h j (Nat.lt_succ_of_lt hj)
    rw [served, served, hprev, serve_live (h i (Nat.lt_succ_self i))]

theorem acks_le_none (time : ℕ) : sc.acks cut time ≤ sc.acks none time := by
  refine Nat.add_le_add_left (List.countP_mono_left fun peer _ hp => ?_) 1
  rw [decide_eq_true_iff] at hp ⊢
  obtain ⟨t, hr, ht, -⟩ := hp
  exact ⟨t, hr, ht, not_expired_none t⟩

theorem acks_mono (h : t ≤ u) : sc.acks none t ≤ sc.acks none u := by
  refine Nat.add_le_add_left (List.countP_mono_left fun peer _ hp => ?_) 1
  rw [decide_eq_true_iff] at hp ⊢
  obtain ⟨x, hr, hx, hlive⟩ := hp
  exact ⟨x, hr, hx.trans h, hlive⟩

/-- Once all heartbeats are back the counter stays. -/
theorem acks_returned (h : sc.Returned none t) : sc.acks none u ≤ sc.acks none t := by
  refine Nat.add_le_add_left (List.countP_mono_left fun peer hpeer hp => ?_) 1
  rw [decide_eq_true_iff] at hp ⊢
  obtain ⟨x, hr, -, hlive⟩ := hp
  obtain ⟨y, hy, hle⟩ := h.resolve_left (not_expired_none t) peer hpeer
  obtain rfl : (x, true) = y := Option.mem_unique hr hy
  exact ⟨x, hr, hle, hlive⟩

/-! ## A batch that is served -/

/-- The node leads up to moment `T`; a majority has acknowledged its term at `j`, not before; and
what was committed by the end of the round is applied from `a` on, within the five seconds. -/
structure Favours (sc : Scene) (term j a T : ℕ) : Prop where
  leads : ∀ i ≤ T, (sc.look i).leads term = true
  round : if sc.lease (sc.now 0) then j = 0 else
    sc.majority ≤ sc.acks none (sc.now j) ∧ ∀ i < j, sc.acks none (sc.now i) < sc.majority
  applied : ∀ i, a ≤ i → i ≤ T → ∀ m ≤ j + 3, (sc.look m).commitIndex ≤ (sc.look i).lastApplied
  early : sc.now a ≤ sc.now j + waitAppliedTimeout

def Seen (sc : Scene) (j index : ℕ) : Prop := ∃ m ≤ j + 3, index = (sc.look m).commitIndex

def OnTime (sc : Scene) (term j a i : ℕ) : Serving → Prop
  | .start => i = 0
  | .confirming t index => i = 1 ∧ t = term ∧ sc.lease (sc.now 0) = false ∧ sc.Seen j index
  | .polling t index =>
    i ≤ max 2 (j + 1) ∧ t = term ∧ sc.lease (sc.now 0) = false ∧ sc.Seen j index
  | .selecting t index => i ≤ j ∧ t = term ∧ sc.lease (sc.now 0) = false ∧ sc.Seen j index
  | .confirmed t index => i ≤ j + 3 ∧ j ≤ i ∧ t = term ∧ sc.Seen j index
  | .applying index => i ≤ j + 4 ∧ j ≤ i ∧ sc.Seen j index
  | .waiting index deadline =>
    i ≤ a + j + 5 ∧ sc.now j + waitAppliedTimeout ≤ deadline ∧ sc.Seen j index
  | .pausing index deadline =>
    i ≤ a ∧ sc.now j + waitAppliedTimeout ≤ deadline ∧ sc.Seen j index
  | .answered _ ok => ok = true

variable {term j a T : ℕ}

/-- Late enough, the batch has its answer. -/
theorem OnTime.answered (h : sc.OnTime term j a i ph) (hlate : a + j + 6 ≤ i) :
    ∃ index, ph = .answered index true := by
  cases ph with
  | answered index ok => exact ⟨index, by rw [show ok = true from h]⟩
  | _ =>
    simp only [OnTime] at h
    omega

namespace Favours

theorem stopped (h : sc.Favours term j a T) (hi : i ≤ T) : (sc.look i).stopped = false :=
  (Node.leads_iff.mp (h.leads i hi)).1

theorem leader (h : sc.Favours term j a T) (hi : i ≤ T) :
    (sc.look i).role = .leader ∧ (sc.look i).currentTerm = term :=
  (Node.leads_iff.mp (h.leads i hi)).2

theorem majority_iff (h : sc.Favours term j a T) (hl : sc.lease (sc.now 0) = false) :
    sc.majority ≤ sc.acks none (sc.now i) ↔ j ≤ i := by
  have hround := h.round
  simp only [hl, Bool.false_eq_true, if_false] at hround
  constructor
  · intro hm
    by_contra hlt
    exact absurd hm (Nat.not_le.mpr (hround.2 i (by omega)))
  · intro hle
    exact hround.1.trans (acks_mono (sc.mono hle))

theorem lastApplied (h : sc.Favours term j a T) (hs : sc.Seen j index) (ha : a ≤ i) (hi : i ≤ T) :
    index ≤ (sc.look i).lastApplied := by
  obtain ⟨m, hm, rfl⟩ := hs
  exact h.applied i ha hi m hm

theorem onTime_serve (h : sc.Favours term j a T) (hi : i ≤ T) (hon : sc.OnTime term j a i ph) :
    sc.OnTime term j a (i + 1) (sc.serve none i ph) := by
  have hlead := h.leader hi
  have hstop := h.stopped hi
  cases ph with
  | start =>
    obtain rfl : i = 0 := hon
    have hseen : sc.Seen j (sc.look 0).commitIndex := ⟨0, Nat.zero_le _, rfl⟩
    simp only [serve, Node.serveReadBatch, hlead.1, ne_eq, not_true_eq_false, if_false, hlead.2]
    split
    · rename_i hl
      have hj : j = 0 := by simpa [hl] using h.round
      exact ⟨by omega, by omega, hseen⟩
    · rename_i hl
      exact ⟨rfl, rfl, by simpa using hl, hseen⟩
  | confirming t index =>
    obtain ⟨rfl, rfl, hl, hseen⟩ := hon
    simp only [serve, h.leads 1 hi, if_true]
    split
    · rename_i hp
      -- the node alone is its majority from the start
      have hj : j ≤ 0 := (h.majority_iff hl).mp (by simp [majority, acks, hp])
      exact ⟨by omega, by omega, rfl, hseen⟩
    · exact ⟨by omega, rfl, hl, hseen⟩
  | polling t index =>
    obtain ⟨hle, rfl, hl, hseen⟩ := hon
    simp only [serve, h.majority_iff hl]
    split
    · exact ⟨by omega, by omega, rfl, hseen⟩
    · exact ⟨by omega, rfl, hl, hseen⟩
  | selecting t index =>
    obtain ⟨hle, rfl, hl, hseen⟩ := hon
    have hpoll : sc.OnTime t j a (i + 1) (.polling t index) := ⟨by omega, rfl, hl, hseen⟩
    simp only [serve, not_expired_none, hstop, if_false, Bool.false_eq_true]
    split
    · exact hpoll
    · exact hpoll
    · split
      · rename_i hret
        have hmaj : sc.majority ≤ sc.acks none (sc.now i) :=
          ((h.majority_iff hl).mpr (Nat.le_refl j)).trans (acks_returned hret)
        rw [if_pos hmaj]
        exact ⟨by omega, by have := (h.majority_iff hl).mp hmaj; omega, rfl, hseen⟩
      · exact hpoll
    · exact hpoll
  | confirmed t index =>
    obtain ⟨hle, hge, rfl, hseen⟩ := hon
    simp only [serve, Node.readAfterRound, hlead, and_self, if_true]
    refine ⟨by omega, by omega, ?_⟩
    split
    · exact ⟨i, hle, rfl⟩
    · exact hseen
  | applying index =>
    obtain ⟨hle, hge, hseen⟩ := hon
    simp only [serve]
    split
    · rfl
    · exact ⟨by omega, Nat.add_le_add_right (sc.mono hge) _, hseen⟩
  | waiting index deadline =>
    obtain ⟨hle, hdl, hseen⟩ := hon
    simp only [serve, hstop, true_and, not_expired_none, Bool.false_eq_true, false_or]
    by_cases ha : a ≤ i
    · rw [if_pos (h.lastApplied hseen ha hi)]
      rfl
    · have hnow : sc.now i ≤ deadline :=
        (sc.mono (show i ≤ a by omega)).trans (h.early.trans hdl)
      rw [if_neg (Nat.not_lt.mpr hnow)]
      split
      · rfl
      · exact ⟨by omega, hdl, hseen⟩
  | pausing index deadline =>
    obtain ⟨hle, hdl, hseen⟩ := hon
    have hwait : sc.OnTime term j a (i + 1) (.waiting index deadline) := ⟨by omega, hdl, hseen⟩
    simp only [serve, not_expired_none, hstop, if_false, Bool.false_eq_true]
    split <;> exact hwait
  | answered index ok => exact hon

theorem onTime (h : sc.Favours term j a T) (hi : i ≤ T + 1) :
    sc.OnTime term j a i (sc.served none i) := by
  induction i with
  | zero => rfl
  | succ i ih => exact h.onTime_serve (by omega) (ih (by omega))

end Favours

theorem served_answered {k : ℕ} (h : sc.served cut i = .answered index ok) (hle : i ≤ k) :
    sc.served cut k = .answered index ok := by
  induction k, hle using Nat.le_induction with
  | base => exact h
  | succ k _ ih => rw [served, ih, serve]

/-! ## A context that is done too early -/

def Held (sc : Scene) (i : ℕ) : Serving → Prop
  | .selecting _ _ | .pausing _ _ => True
  | .waiting readIndex _ =>
    ¬ ((sc.look i).stopped = false ∧ readIndex ≤ (sc.look i).lastApplied)
  | _ => False

/-- The batch stands at a `select`, and its context is done. -/
def Disturbed (sc : Scene) (cut : Option ℕ) (i : ℕ) : Prop :=
  sc.Held i (sc.served cut i) ∧ Expired cut (sc.now i)

theorem OnTime.held (h : sc.OnTime term j a i ph) (hheld : sc.Held i ph) : i ≤ a + j + 5 := by
  cases ph <;> simp only [Held] at hheld <;> simp only [OnTime] at h <;> omega

/-- Only a batch that is held takes notice of its context, or one whose heartbeats came back with
it, and that one is held next. -/
theorem serve_unheld (h : ¬ (sc.Held i ph ∧ Expired cut (sc.now i))) :
    sc.serve cut i ph = sc.serve none i ph ∨
      ∃ term readIndex, ph = .polling term readIndex ∧
        sc.serve cut i ph = .selecting term readIndex ∧ Expired cut (sc.now (i + 1)) := by
  by_cases hx : Expired cut (sc.now i)
  swap
  · exact .inl (serve_live hx ph)
  have hheld : ¬ sc.Held i ph := fun hh => h ⟨hh, hx⟩
  cases ph with
  | polling term readIndex =>
    by_cases hm : sc.majority ≤ sc.acks cut (sc.now i)
    · left
      simp only [serve, hm, hm.trans (acks_le_none _), if_true]
    · refine .inr ⟨term, readIndex, rfl, ?_, hx.mono (sc.mono (Nat.le_succ i))⟩
      simp only [serve, hm, if_false]
  | waiting readIndex deadline =>
    left
    simp only [serve, if_pos (not_not.mp hheld)]
  | selecting | pausing => exact absurd trivial hheld
  | _ => exact .inl rfl

/-- A batch that is never disturbed is served as if it had no context. -/
theorem served_undisturbed (h : ∀ k ≤ i, ¬ sc.Disturbed cut k) :
    sc.served cut i = sc.served none i := by
  induction i with
  | zero => rfl
  | succ i ih =>
    have hprev := ih fun k hk => h k (Nat.le_succ_of_le hk)
    rcases serve_unheld (h i (Nat.le_succ i)) with hs | ⟨t, x, -, hs, hx⟩
    · rw [served, served, hs, hprev]
    · refine absurd ⟨?_, hx⟩ (h (i + 1) (Nat.le_refl _))
      rw [served, hs]
      trivial

/-- The first disturbance comes before the answer would have. -/
theorem Disturbed.first (h : sc.Favours term j a T) (hd : sc.Disturbed cut i)
    (hfirst : ∀ k < i, ¬ sc.Disturbed cut k) (hT : a + j + 6 ≤ T) : i ≤ a + j + 5 := by
  obtain _ | m := i
  · exact Nat.zero_le _
  have hsame (k : ℕ) (hk : k ≤ m) : sc.served cut k = sc.served none k :=
    served_undisturbed fun x hx => hfirst x (by omega)
  by_cases hlate : a + j + 6 ≤ m
  · obtain ⟨index, hans⟩ := (h.onTime (i := a + j + 6) (by omega)).answered (Nat.le_refl _)
    rw [← hsame _ hlate] at hans
    have hheld := hd.1
    rw [served_answered hans (by omega)] at hheld
    exact absurd hheld id
  have hon := h.onTime (i := m) (by omega)
  rcases serve_unheld (hfirst m (Nat.lt_succ_self m)) with hs | ⟨t, x, hp, -⟩
  · have hnext := h.onTime (i := m + 1) (by omega)
    rw [served, ← hsame m (Nat.le_refl m), ← hs] at hnext
    exact hnext.held hd.1
  · rw [← hsame m (Nat.le_refl m), hp] at hon
    have := hon.1
    omega

/-! ## The branches that the batcher takes -/

def picking (sc : Scene) (pick : ℕ → Select) : Scene := { sc with pick := pick }

theorem Favours.picking (h : sc.Favours term j a T) (pick : ℕ → Select) :
    (sc.picking pick).Favours term j a T :=
  ⟨h.leads, h.round, h.applied, h.early⟩

theorem served_picking {pick pick' : ℕ → Select} (h : ∀ k < i, pick k = pick' k) :
    (sc.picking pick).served cut i = (sc.picking pick').served cut i := by
  induction i with
  | zero => rfl
  | succ i ih =>
    have hpick : (sc.picking pick).pick i = (sc.picking pick').pick i := h i (Nat.lt_succ_self i)
    rw [served, served, ih fun k hk => h k (Nat.lt_succ_of_lt hk)]
    cases hs : (sc.picking pick').served cut i <;> simp only [serve, hpick] <;> rfl

/-- However the `select`s fall, the context of the batch is live as long as the batch is held. -/
def Lasts (sc : Scene) (cut : Option ℕ) : Prop :=
  ∀ pick i, ¬ (sc.picking pick).Disturbed cut i

theorem Favours.lasts (h : sc.Favours term j a T) (hT : a + j + 6 ≤ T)
    (hlive : ∀ i < a + j + 6, ¬ Expired cut (sc.now i)) : sc.Lasts cut := by
  intro pick i hd
  by_cases hi : i < a + j + 6
  · exact hlive i hi hd.2
  obtain ⟨index, hans⟩ := ((h.picking pick).onTime (i := a + j + 6) (by omega)).answered
    (Nat.le_refl _)
  have hlived : (sc.picking pick).served cut (a + j + 6) = (sc.picking pick).served none _ :=
    served_live hlive
  have hheld := hd.1
  rw [served_answered (hlived.trans hans) (by omega)] at hheld
  exact hheld

theorem serve_disturbed (hheld : sc.Held i ph) (hx : Expired cut (sc.now i))
    (hpick : sc.pick i = .ctx) : sc.serve cut i ph = .answered 0 false := by
  cases ph with
  | selecting | pausing => simp only [serve, hpick, hx, if_true]
  | waiting readIndex deadline => simp only [serve, if_neg hheld, hx, true_or, or_true, if_true]
  | _ => exact absurd hheld id

/-- A disturbed batch fails where the `select` takes notice. -/
theorem Disturbed.fails {pick : ℕ → Select} (hd : (sc.picking pick).Disturbed cut i) :
    (sc.picking fun k => if k < i then pick k else .ctx).served cut (i + 1) =
      .answered 0 false := by
  have hsame : (sc.picking fun k => if k < i then pick k else .ctx).served cut i =
      (sc.picking pick).served cut i :=
    served_picking fun k hk => if_pos hk
  rw [served, hsame]
  exact serve_disturbed hd.1 hd.2 (if_neg (Nat.lt_irrefl i))

/-! ## One caller among others -/

variable {batch : List (Option ℕ)} {cancel cancel' : ℕ → Option ℕ} {me : ℕ}

/-- The caller has no other answer than the batch's, where it neither gives up nor stops. -/
theorem caller_hears (hstop : ∀ i ≤ T, (sc.look i).stopped = false)
    (hlive : ∀ i ≤ T, ¬ Expired (cancel me) (sc.now i))
    (hT : sc.served ((batchContext batch).bind cancel) T = .answered index ok) (hi : i ≤ T + 1) :
    sc.caller batch cancel me i = .pending ∨ sc.caller batch cancel me i = .returned index ok := by
  induction i with
  | zero => exact .inl rfl
  | succ i ih =>
    have hle : i ≤ T := by omega
    rw [Scene.caller]
    rcases ih (by omega) with hc | hc <;> rw [hc]
    · simp only [wait, hlive i hle, hstop i hle, if_false, Bool.false_eq_true]
      split
      · exact .inl rfl
      · exact .inl rfl
      · split
        · rename_i x b hs
          have := (served_answered hs hle).symm.trans hT
          cases this
          exact .inr rfl
        · exact .inl rfl
      · exact .inl rfl
    · exact .inr rfl

/-- The caller that looks at its channel once the batch has its answer has it too. -/
theorem caller_heard (hstop : ∀ i ≤ T, (sc.look i).stopped = false)
    (hlive : ∀ i ≤ T, ¬ Expired (cancel me) (sc.now i)) (hhear : sc.hear me T = .finished)
    (hT : sc.served ((batchContext batch).bind cancel) T = .answered index ok) :
    sc.caller batch cancel me (T + 1) = .returned index ok := by
  rw [Scene.caller, hT]
  rcases caller_hears hstop hlive hT (Nat.le_succ T) with hc | hc <;> rw [hc]
  · simp only [wait, hhear]
  · rfl

/-- With leadership, acknowledgements and applies in its favour, a caller is told yes whatever the
`select`s do if and only if the context of the batch lasts. -/
theorem Favours.heard_iff (h : sc.Favours term j a T) (hT : a + j + 6 ≤ T)
    (hlive : ∀ i ≤ T, ¬ Expired (cancel me) (sc.now i)) (hhear : sc.hear me T = .finished) :
    (∀ pick, ∃ index, (sc.picking pick).caller batch cancel me (T + 1) = .returned index true) ↔
      sc.Lasts ((batchContext batch).bind cancel) := by
  classical
  have hheard (pick : ℕ → Select) {index : ℕ} {ok : Bool}
      (hs : (sc.picking pick).served ((batchContext batch).bind cancel) T = .answered index ok) :
      (sc.picking pick).caller batch cancel me (T + 1) = .returned index ok :=
    caller_heard (fun i hi => (h.picking pick).stopped hi) hlive hhear hs
  constructor
  · intro hyes pick i hd
    have hex : ∃ i, (sc.picking pick).Disturbed ((batchContext batch).bind cancel) i := ⟨i, hd⟩
    have hsoon := (Nat.find_spec hex).first (h.picking pick) (fun k hk => Nat.find_min hex hk) hT
    have hfail := served_answered (Nat.find_spec hex).fails (k := T) (by omega)
    obtain ⟨index, htrue⟩ := hyes fun k => if k < Nat.find hex then pick k else .ctx
    rw [hheard _ hfail] at htrue
    exact absurd (Caller.returned.inj htrue).2 Bool.false_ne_true
  · intro hlast pick
    obtain ⟨index, hans⟩ := ((h.picking pick).onTime (Nat.le_succ T)).answered hT
    rw [← served_undisturbed fun k _ => hlast pick k] at hans
    exact ⟨index, hheard pick hans⟩

theorem caller_congr (hme : cancel' me = cancel me)
    (hs : ∀ k < i, sc.served ((batchContext batch).bind cancel') k =
      sc.served ((batchContext batch).bind cancel) k) :
    sc.caller batch cancel' me i = sc.caller batch cancel me i := by
  induction i with
  | zero => rfl
  | succ i ih =>
    rw [Scene.caller, Scene.caller, hme, hs i (Nat.lt_succ_self i),
      ih fun k hk => hs k (Nat.lt_succ_of_lt hk)]

/-- Where both contexts of the batch last, the caller cannot tell them apart. -/
theorem Lasts.caller_congr (hme : cancel' me = cancel me)
    (h : sc.Lasts ((batchContext batch).bind cancel))
    (h' : sc.Lasts ((batchContext batch).bind cancel')) (pick : ℕ → Select) (i : ℕ) :
    (sc.picking pick).caller batch cancel' me i = (sc.picking pick).caller batch cancel me i :=
  Scene.caller_congr hme fun k _ => by
    rw [served_undisturbed fun x _ => h' pick x, served_undisturbed fun x _ => h pick x]

end Scene

/-- A leader of three with everything applied, whose peers answer after ten nanoseconds. -/
def readScene : Scene where
  peers := [2, 3]
  node := fun _ =>
    { newNode 1 [2, 3] 0 ⟨1, 1, [], ⟨0, 0, []⟩⟩ with
      role := .leader
      commitIndex := 4
      lastApplied := 4 }
  lease := fun _ => false
  reply := fun _ => some (10, true)
  now := id
  mono := monotone_id
  pick := fun _ => .ctx
  hear := fun _ _ => .finished

theorem readScene_favours (T : ℕ) : readScene.Favours 1 10 10 T where
  leads := fun _ _ => rfl
  round := by decide
  applied := fun _ _ _ _ _ => Nat.le_refl 4
  early := by decide

end KMC
