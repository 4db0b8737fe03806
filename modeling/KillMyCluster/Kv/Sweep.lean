import KillMyCluster.Kv.Dedup
import Mathlib.Algebra.Order.BigOperators.Group.Finset
import Mathlib.Order.Interval.Finset.Nat

/-! How far the table of results grows. It is swept only every 1024 tracked commands and only from
the high-water mark on; a sweep leaves each client the requests of its window. What a sweep drops is
decided by a sum of 64 bits, which wraps around for the last request ids. -/

namespace KMC

namespace Machine

variable {m : Machine} {cmd : Command} {res : ApplyResult} {clients : Finset Bytes}

/-! ## The newest request -/

theorem maxRequest_note_le (m : Machine) (cmd : Command) (res : ApplyResult) (client : Bytes) :
    m.maxRequest client ≤ (m.note cmd res).maxRequest client := by
  unfold maxRequest note
  simp only
  split
  · rename_i hlt
    rw [Table.get_set]
    split
    · rename_i heq
      exact UInt64.le_of_lt (heq ▸ hlt)
    · exact UInt64.le_refl _
  · exact UInt64.le_refl _

theorem le_maxRequest_note (m : Machine) (cmd : Command) (res : ApplyResult) :
    cmd.requestID ≤ (m.note cmd res).maxRequest cmd.clientID := by
  by_cases hlt : m.maxRequest cmd.clientID < cmd.requestID
  · simp [maxRequest, note, show (m.maxReq.get cmd.clientID).getD 0 < cmd.requestID from hlt]
  · exact UInt64.le_trans (UInt64.not_lt.mp hlt) (m.maxRequest_note_le cmd res cmd.clientID)

/-- The table holds requests of these clients only, and none above a client's newest. -/
structure Anchored (clients : Finset Bytes) (m : Machine) : Prop where
  client : ∀ k res, m.applied.get k = some res → k.client ∈ clients
  newest : ∀ k res, m.applied.get k = some res → k.requestID ≤ m.maxRequest k.client

theorem Anchored.note (h : m.Anchored clients) (hc : cmd.clientID ∈ clients) :
    (m.note cmd res).Anchored clients := by
  have hget : ∀ k v, (m.note cmd res).applied.get k = some v →
      k = cmd.dedupKey ∨ m.applied.get k = some v := by
    intro k v hk
    simp only [Machine.note, Table.get_set] at hk
    split at hk
    · exact .inl ‹_›
    · exact .inr hk
  refine ⟨fun k v hk => ?_, fun k v hk => ?_⟩
  · rcases hget k v hk with rfl | hk
    · exact hc
    · exact h.client k v hk
  · rcases hget k v hk with rfl | hk
    · exact m.le_maxRequest_note cmd res
    · exact UInt64.le_trans (h.newest k v hk) (m.maxRequest_note_le cmd res k.client)

theorem sweep_get (m : Machine) (k : DedupKey) :
    m.sweepDedupLocked.applied.get k =
      if k.requestID + dedupWindow < m.maxRequest k.client then none else m.applied.get k := by
  rw [sweepDedupLocked, Table.get_prune]
  simp

theorem Anchored.sweep (h : m.Anchored clients) : m.sweepDedupLocked.Anchored clients := by
  have hget : ∀ k v, m.sweepDedupLocked.applied.get k = some v → m.applied.get k = some v := by
    intro k v hk
    rw [sweep_get] at hk
    split at hk
    · cases hk
    · exact hk
  exact ⟨fun k v hk => h.client k v (hget k v hk), fun k v hk => h.newest k v (hget k v hk)⟩

/-! ## What a sweep leaves -/

def requests (m : Machine) (client : Bytes) : Finset DedupKey :=
  (Finmap.keys m.applied).filter fun k => k.client = client

/-- Each client has the requests of its window at most. -/
def Swept (m : Machine) : Prop :=
  ∀ client, (m.requests client).card ≤ dedupWindow.toNat + 1 ∧
    ∀ k ∈ m.requests client, k.requestID.toNat ≤ (m.maxRequest client).toNat ∧
      (m.maxRequest client).toNat - k.requestID.toNat ≤ dedupWindow.toNat

theorem mem_requests {client : Bytes} {k : DedupKey} :
    k ∈ m.requests client ↔ (∃ v, m.applied.get k = some v) ∧ k.client = client := by
  rw [requests, Finset.mem_filter, Table.mem_keys]

/-- Requests that lie in one window are few. -/
theorem card_requests_le {client : Bytes} {top : ℕ}
    (h : ∀ k ∈ m.requests client, k.requestID.toNat ≤ top ∧
      top - k.requestID.toNat ≤ dedupWindow.toNat) :
    (m.requests client).card ≤ dedupWindow.toNat + 1 := by
  have hmaps : ∀ k ∈ m.requests client,
      k.requestID.toNat ∈ Finset.Icc (top - dedupWindow.toNat) top := by
    intro k hk
    obtain ⟨h1, h2⟩ := h k hk
    exact Finset.mem_Icc.mpr ⟨by omega, h1⟩
  have hinj : Set.InjOn (fun k : DedupKey => k.requestID.toNat) (m.requests client) := by
    rintro ⟨c, r⟩ hk ⟨c', r'⟩ hk' heq
    obtain rfl : c = client := (mem_requests.mp hk).2
    obtain rfl : c' = c := (mem_requests.mp hk').2
    obtain rfl : r = r' := UInt64.toNat_inj.mp heq
    rfl
  refine (Finset.card_le_card_of_injOn _ hmaps hinj).trans ?_
  rw [Nat.card_Icc]
  omega

theorem Anchored.swept (h : m.Anchored clients) : m.sweepDedupLocked.Swept := by
  intro client
  have hwindow : ∀ k ∈ m.sweepDedupLocked.requests client,
      k.requestID.toNat ≤ (m.maxRequest client).toNat ∧
        (m.maxRequest client).toNat - k.requestID.toNat ≤ dedupWindow.toNat := by
    intro k hk
    obtain ⟨⟨v, hv⟩, rfl⟩ := mem_requests.mp hk
    refine ⟨UInt64.le_iff_toNat_le.mp (h.sweep.newest k v hv), ?_⟩
    rw [sweep_get] at hv
    split at hv
    · cases hv
    · -- the sum may have wrapped around, but then it is even smaller
      rename_i hkept
      rw [UInt64.not_lt, UInt64.le_iff_toNat_le, UInt64.toNat_add] at hkept
      have := hkept.trans (Nat.mod_le _ _)
      omega
  exact ⟨card_requests_le hwindow, hwindow⟩

theorem Anchored.size_le (h : m.Anchored clients) (hs : m.Swept) :
    m.applied.size ≤ (dedupWindow.toNat + 1) * clients.card := by
  rw [Table.size_eq_card]
  refine Finset.card_le_mul_card_image_of_maps_to (f := DedupKey.client) (fun k hk => ?_) _
    fun client _ => (hs client).1
  obtain ⟨v, hv⟩ := Table.mem_keys.mp hk
  exact h.client k v hv

/-! ## Between sweeps -/

def Sweeps (m : Machine) (cmd : Command) : Prop :=
  cmd.tracked = true ∧ m.applied.get cmd.dedupKey = none ∧
    dedupHighWater ≤ m.applied.size + 1 ∧ (m.applyCount + 1) % dedupSweepEvery = 0

def noted (m : Machine) (cmd : Command) : Machine :=
  ({ m with data := (execute m.data cmd).1 } : Machine).note cmd (execute m.data cmd).2

theorem size_noted (h : m.applied.get cmd.dedupKey = none) :
    (m.noted cmd).applied.size = m.applied.size + 1 := Table.size_set _ h

theorem ran_eq_noted (ht : cmd.tracked = true) : m.ran cmd =
    if dedupHighWater ≤ (m.noted cmd).applied.size ∧ (m.noted cmd).applyCount % dedupSweepEvery = 0
    then (m.noted cmd).sweepDedupLocked else m.noted cmd := by
  simp only [ran, ht, if_true]
  rfl

theorem apply_sweeps (h : m.Sweeps cmd) : (m.apply cmd).1 = (m.noted cmd).sweepDedupLocked := by
  obtain ⟨ht, hnone, hsize, hcount⟩ := h
  rw [apply_run fun _ => hnone, ran_eq_noted ht]
  exact if_pos ⟨by rw [size_noted hnone]; exact hsize, hcount⟩

theorem apply_pauses (ht : cmd.tracked = true) (hnone : m.applied.get cmd.dedupKey = none)
    (h : ¬ m.Sweeps cmd) : (m.apply cmd).1 = m.noted cmd := by
  rw [apply_run fun _ => hnone, ran_eq_noted ht, size_noted hnone]
  exact if_neg fun hif => h ⟨ht, hnone, hif.1, hif.2⟩

/-- One more than the number of commands since the count was last a multiple. -/
theorem count_succ (c : UInt64) : (c + 1).toNat % dedupSweepEvery.toNat =
    (c.toNat + 1) % dedupSweepEvery.toNat := by
  rw [UInt64.toNat_add, show (1 : UInt64).toNat = 1 from rfl,
    show dedupSweepEvery.toNat = 1024 from rfl]
  omega

/-- The table is bounded by `B` where the count is a multiple of 1024, and grows by one each time
from there. -/
structure Bounded (B : ℕ) (clients : Finset Bytes) (m : Machine) : Prop
    extends Anchored clients m where
  size : m.applied.size ≤ B + m.applyCount.toNat % dedupSweepEvery.toNat

theorem Bounded.apply {B : ℕ} (h : m.Bounded B clients) (hhigh : dedupHighWater - 1 ≤ B)
    (hclients : (dedupWindow.toNat + 1) * clients.card ≤ B)
    (hc : cmd.tracked = true → cmd.clientID ∈ clients) : (m.apply cmd).1.Bounded B clients := by
  rcases m.apply_cases cmd with ⟨_, -, -, ha⟩ | ⟨hnone, ha⟩
  · rw [ha]
    exact h
  by_cases ht : cmd.tracked = true
  swap
  · rw [ha, ran_untracked (by simpa using ht)]
    exact ⟨⟨h.client, h.newest⟩, h.size⟩
  have hanchored : (m.noted cmd).Anchored clients :=
    Anchored.note ⟨h.client, h.newest⟩ (hc ht)
  have hcount := count_succ m.applyCount
  have hlt := Nat.mod_lt m.applyCount.toNat (show 0 < dedupSweepEvery.toNat by decide)
  by_cases hs : m.Sweeps cmd
  · -- the sweep brings the table down to what its clients may have
    rw [apply_sweeps hs]
    refine ⟨hanchored.sweep, ?_⟩
    have := hanchored.sweep.size_le hanchored.swept
    omega
  · rw [apply_pauses ht (hnone ht) hs]
    refine ⟨hanchored, ?_⟩
    have hgrow := h.size
    rw [size_noted (hnone ht), show (m.noted cmd).applyCount = m.applyCount + 1 from rfl, hcount]
    by_cases hzero : (m.applyCount.toNat + 1) % dedupSweepEvery.toNat = 0
    · -- no sweep at a multiple: the table is below the mark
      have hmod : (m.applyCount + 1) % dedupSweepEvery = 0 :=
        UInt64.toNat_inj.mp (by rw [UInt64.toNat_mod, hcount, hzero]; rfl)
      have : ¬ dedupHighWater ≤ m.applied.size + 1 := fun hle => hs ⟨ht, hnone ht, hle, hmod⟩
      omega
    · rw [show dedupSweepEvery.toNat = 1024 from rfl] at *
      omega

end Machine

def clientsOf (cmds : List Command) : Finset Bytes :=
  ((cmds.filter Command.tracked).map Command.clientID).toFinset

namespace Machine

theorem bounded_stateAt {cmds : List Command} {B : ℕ} (hhigh : dedupHighWater - 1 ≤ B)
    (hclients : (dedupWindow.toNat + 1) * (clientsOf cmds).card ≤ B) (k : ℕ) :
    (stateAt cmds k).Bounded B (clientsOf cmds) := by
  induction k with
  | zero =>
    refine ⟨⟨fun k res hk => ?_, fun k res hk => ?_⟩, Nat.zero_le _⟩ <;>
      · rw [show (stateAt cmds 0).applied = ∅ from rfl, Table.get_empty] at hk
        cases hk
  | succ k ih =>
    cases hx : cmds[k]? with
    | some x =>
      rw [stateAt_succ hx]
      refine ih.apply hhigh hclients fun ht => List.mem_toFinset.mpr (List.mem_map.mpr ⟨x, ?_, rfl⟩)
      exact List.mem_filter.mpr ⟨List.mem_of_getElem? hx, ht⟩
    | none =>
      have htake : cmds.take (k + 1) = cmds.take k := by
        rw [List.take_add_one, hx]
        simp
      rwa [stateAt, htake]

end Machine

open Machine in
/-- After any commands the table is at most 1024 above the high-water mark or above what its clients
may have; and a command that sets off a sweep leaves each client its window. -/
theorem dedup_table_bounded (cmds : List Command) :
    (∀ k, (stateAt cmds k).applied.size ≤
      max (dedupHighWater - 1) ((dedupWindow.toNat + 1) * (clientsOf cmds).card) +
        dedupSweepEvery.toNat) ∧
    ∀ k cmd, cmds[k]? = some cmd → (stateAt cmds k).Sweeps cmd →
      (stateAt cmds (k + 1)).Swept := by
  set B := max (dedupHighWater - 1) ((dedupWindow.toNat + 1) * (clientsOf cmds).card) with hB
  have hbounded := bounded_stateAt (le_max_left _ _ : _ ≤ B) (le_max_right _ _)
  refine ⟨fun k => ?_, fun k cmd hcmd hs => ?_⟩
  · have hlt := Nat.mod_lt (stateAt cmds k).applyCount.toNat
      (show 0 < dedupSweepEvery.toNat by decide)
    have := (hbounded k).size
    omega
  · have hmem : cmd.clientID ∈ clientsOf cmds := List.mem_toFinset.mpr
      (List.mem_map.mpr ⟨cmd, List.mem_filter.mpr ⟨List.mem_of_getElem? hcmd, hs.1⟩, rfl⟩)
    rw [stateAt_succ hcmd, apply_sweeps hs]
    exact (Anchored.note ⟨(hbounded k).client, (hbounded k).newest⟩ hmem).swept

/-! ## Requests in the window -/

namespace Machine

theorem newest_applyAll {cmds : List Command} {k : DedupKey} {res : ApplyResult}
    (hget : (newMachine.applyAll cmds).1.applied.get k = some res) :
    k.requestID ≤ (newMachine.applyAll cmds).1.maxRequest k.client := by
  have hbounded := bounded_stateAt
    (le_max_left (dedupHighWater - 1) ((dedupWindow.toNat + 1) * (clientsOf cmds).card))
    (le_max_right _ _) cmds.length
  rw [stateAt, List.take_length] at hbounded
  exact hbounded.newest k res hget

/-- The sum that decides wraps around for the last ids of the type. -/
theorem toNat_add_dedupWindow (r : UInt64) : (r + dedupWindow).toNat =
    if r.toNat + dedupWindow.toNat < 2 ^ 64 then r.toNat + dedupWindow.toNat
    else r.toNat + dedupWindow.toNat - 2 ^ 64 := by
  have hr := r.toNat_lt
  have hw : dedupWindow.toNat = 128 := rfl
  rw [UInt64.toNat_add]
  split <;> omega

end Machine

open Machine in
/-- A request in the window survives a sweep if and only if its id is not among the last 128 of its
type. -/
theorem sweep_keeps_window (cmds : List Command) (k : DedupKey) (res : ApplyResult)
    (hget : (newMachine.applyAll cmds).1.applied.get k = some res)
    (hwindow : ((newMachine.applyAll cmds).1.maxRequest k.client).toNat - (k.requestID.toNat : ℤ) ≤
      dedupWindow.toNat) :
    (newMachine.applyAll cmds).1.sweepDedupLocked.applied.get k = some res ↔
      k.requestID.toNat + dedupWindow.toNat < 2 ^ 64 := by
  have hnewest := UInt64.le_iff_toNat_le.mp (newest_applyAll hget)
  have hsum := toNat_add_dedupWindow k.requestID
  have hw : dedupWindow.toNat = 128 := rfl
  rw [sweep_get, hget]
  by_cases hfar : k.requestID.toNat + dedupWindow.toNat < 2 ^ 64
  · rw [if_pos hfar] at hsum
    rw [if_neg (by rw [UInt64.lt_iff_toNat_lt]; omega)]
    exact iff_of_true rfl hfar
  · -- what wrapped around is below the request itself, and so below the newest one
    rw [if_neg hfar] at hsum
    rw [if_pos (by rw [UInt64.lt_iff_toNat_lt]; omega)]
    exact iff_of_false (by simp) hfar

def putOf (id : UInt64) : Command := { op := opPut, clientID := [1], requestID := id, key := [2] }

/-- The older of two requests, a whole window behind. -/
theorem sweep_keeps_window_edge :
    (newMachine.applyAll [putOf 1, putOf 129]).1.sweepDedupLocked.applied.get ⟨[1], 1⟩ =
      some { found := true } :=
  (sweep_keeps_window [putOf 1, putOf 129] ⟨[1], 1⟩ { found := true } (by decide) (by decide)).mpr
    (by decide)

def lastRequestID : UInt64 := 18446744073709551615

/-- The result is in the table, it is the client's newest, and a sweep drops it. -/
theorem newest_request_swept :
    let m := (newMachine.applyAll [putOf lastRequestID]).1
    m.applied.get ⟨[1], lastRequestID⟩ = some { found := true } ∧
      m.maxRequest [1] = lastRequestID ∧
      m.sweepDedupLocked.applied.get ⟨[1], lastRequestID⟩ = none := by
  decide

end KMC
