import KillMyCluster.Kv.Machine

/-! The table of results. A request that ran once is answered from the table as long as its client
has not gone on by more than the window: no sweep, whoever's traffic sets it off, drops it. -/

namespace KMC

namespace Machine

variable {m : Machine} {cmd : Command} {cmds : List Command}

/-! ## One command -/

theorem execute_duplicate (data : Table Bytes Slice) (cmd : Command) :
    (execute data cmd).2.duplicate = false := by
  unfold execute
  split
  · split <;> rfl
  split
  · rfl
  split
  · split
    · split <;> rfl
    · split <;> rfl
  split <;> rfl

/-- The machine after a command that was not answered from the table. -/
def ran (m : Machine) (cmd : Command) : Machine :=
  let m' := { m with data := (execute m.data cmd).1 }
  if cmd.tracked then m'.remember cmd (execute m.data cmd).2 else m'

theorem apply_hit {prev : ApplyResult} (ht : cmd.tracked = true)
    (h : m.applied.get cmd.dedupKey = some prev) :
    m.apply cmd = (m, { prev with duplicate := true }) := by
  simp [apply, ht, h]

theorem apply_run (h : cmd.tracked = true → m.applied.get cmd.dedupKey = none) :
    m.apply cmd = (m.ran cmd, (execute m.data cmd).2) := by
  unfold apply
  split
  · rename_i prev hp
    split at hp
    · rename_i ht
      rw [h ht] at hp
      cases hp
    · cases hp
  · rfl

theorem apply_cases (m : Machine) (cmd : Command) :
    (∃ prev, cmd.tracked = true ∧ m.applied.get cmd.dedupKey = some prev ∧
      m.apply cmd = (m, { prev with duplicate := true })) ∨
    (cmd.tracked = true → m.applied.get cmd.dedupKey = none) ∧
      m.apply cmd = (m.ran cmd, (execute m.data cmd).2) := by
  by_cases ht : cmd.tracked = true
  · cases h : m.applied.get cmd.dedupKey with
    | some prev => exact .inl ⟨prev, ht, rfl, apply_hit ht h⟩
    | none => exact .inr ⟨fun _ => rfl, apply_run fun _ => h⟩
  · exact .inr ⟨fun h => absurd h ht, apply_run fun h => absurd h ht⟩

theorem remember_maxReq (m : Machine) (cmd : Command) (res : ApplyResult) :
    (m.remember cmd res).maxReq = (m.note cmd res).maxReq := by
  unfold remember
  simp only
  split <;> rfl

/-- A sweep may have dropped an entry that lies behind the window. -/
theorem remember_get (m : Machine) (cmd : Command) (res : ApplyResult) (k : DedupKey) :
    (m.remember cmd res).applied.get k = (m.note cmd res).applied.get k ∨
      (m.remember cmd res).applied.get k = none ∧
        k.requestID + dedupWindow < (m.note cmd res).maxRequest k.client := by
  unfold remember
  simp only
  split
  · rw [sweepDedupLocked, Table.get_prune]
    split
    · rename_i hlt
      exact .inr ⟨rfl, by simpa using hlt⟩
    · exact .inl rfl
  · exact .inl rfl

theorem ran_untracked (ht : cmd.tracked = false) :
    m.ran cmd = { m with data := (execute m.data cmd).1 } := by
  simp [ran, ht]

/-! ## The newest request of a client -/

theorem maxRequest_apply {client : Bytes} {bound : UInt64} (h : m.maxRequest client ≤ bound)
    (hc : cmd.clientID = client → cmd.requestID ≤ bound) :
    (m.apply cmd).1.maxRequest client ≤ bound := by
  rcases m.apply_cases cmd with ⟨_, -, -, ha⟩ | ⟨-, ha⟩ <;> rw [ha]
  · exact h
  by_cases ht : cmd.tracked = true
  swap
  · rw [ran_untracked (by simpa using ht)]
    exact h
  simp only [ran, ht, if_true, maxRequest, remember_maxReq]
  unfold note
  simp only
  split
  · rw [Table.get_set]
    split
    · rename_i heq
      exact hc heq.symm
    · exact h
  · exact h

/-! ## Entries of the window -/

/-- A request whose client has not gone on beyond the window. -/
def Recent (m : Machine) (k : DedupKey) : Prop :=
  k.requestID.toNat + 128 < 2 ^ 64 ∧ m.maxRequest k.client ≤ k.requestID + dedupWindow

theorem ran_get (ht : cmd.tracked = true) {k : DedupKey} (h : (m.ran cmd).Recent k) :
    (m.ran cmd).applied.get k = (m.applied.set cmd.dedupKey (execute m.data cmd).2).get k := by
  have hdup : ({ (execute m.data cmd).2 with duplicate := false } : ApplyResult) =
      (execute m.data cmd).2 := by
    rw [← execute_duplicate m.data cmd]
  simp only [ran, ht, if_true] at h ⊢
  rcases remember_get { m with data := (execute m.data cmd).1 } cmd (execute m.data cmd).2 k with
    hget | ⟨-, hlt⟩
  · rw [hget, note, hdup]
  · refine absurd hlt (UInt64.not_lt.mpr ?_)
    have := h.2
    rwa [maxRequest, remember_maxReq] at this

/-- An entry outlives a command that leaves it recent. -/
theorem get_apply {k : DedupKey} {res : ApplyResult} (hk : m.applied.get k = some res)
    (h : (m.apply cmd).1.Recent k) : (m.apply cmd).1.applied.get k = some res := by
  rcases m.apply_cases cmd with ⟨_, -, -, ha⟩ | ⟨hnone, ha⟩ <;> rw [ha] at h ⊢
  · exact hk
  by_cases ht : cmd.tracked = true
  swap
  · rw [ran_untracked (by simpa using ht)]
    exact hk
  have hne : k ≠ cmd.dedupKey := by
    rintro rfl
    rw [hnone ht] at hk
    cases hk
  rw [ran_get ht h, Table.get_set_ne _ _ hne, hk]

/-- A command that ran has its result in the table. -/
theorem get_ran (ht : cmd.tracked = true) (h : (m.apply cmd).1.Recent cmd.dedupKey)
    (hrun : (m.apply cmd).2.duplicate = false) :
    (m.apply cmd).1.applied.get cmd.dedupKey = some (m.apply cmd).2 := by
  rcases m.apply_cases cmd with ⟨_, -, -, ha⟩ | ⟨hnone, ha⟩ <;> rw [ha] at h hrun ⊢
  · cases hrun
  · rw [ran_get ht h, Table.get_set_self]

/-! ## Sequences -/

def stateAt (cmds : List Command) (k : ℕ) : Machine := (newMachine.applyAll (cmds.take k)).1

theorem applyAll_append (m : Machine) (xs ys : List Command) :
    m.applyAll (xs ++ ys) = (((m.applyAll xs).1.applyAll ys).1,
      (m.applyAll xs).2 ++ ((m.applyAll xs).1.applyAll ys).2) := by
  induction xs generalizing m with
  | nil => rfl
  | cons cmd xs ih => simp [applyAll, ih]

theorem stateAt_succ {k : ℕ} (h : cmds[k]? = some cmd) :
    stateAt cmds (k + 1) = ((stateAt cmds k).apply cmd).1 := by
  simp [stateAt, List.take_add_one, h, applyAll_append, applyAll]

theorem maxRequest_stateAt {client : Bytes} {bound : UInt64} (j : ℕ)
    (h : ∀ k x, k < j → cmds[k]? = some x → x.clientID = client → x.requestID ≤ bound) :
    (stateAt cmds j).maxRequest client ≤ bound := by
  induction j with
  | zero => exact UInt64.zero_le
  | succ j ih =>
    have hj := ih fun k x hk => h k x (by omega)
    cases hx : cmds[j]? with
    | some x =>
      rw [stateAt_succ hx]
      exact maxRequest_apply hj fun hc => h j x (by omega) hx hc
    | none =>
      have htake : cmds.take (j + 1) = cmds.take j := by
        rw [List.take_add_one, hx]
        simp
      rwa [stateAt, htake]

/-- No request of the client so far is more than the window ahead. -/
theorem recent_stateAt {key : DedupKey} {j : ℕ} (hbound : key.requestID.toNat + 128 < 2 ^ 64)
    (hwindow : ∀ k x, k < j → cmds[k]? = some x → x.clientID = key.client →
      x.requestID.toNat ≤ key.requestID.toNat + 128) : (stateAt cmds j).Recent key := by
  refine ⟨hbound, maxRequest_stateAt j fun l x hl hx hc => ?_⟩
  have := hwindow l x hl hx hc
  rw [UInt64.le_iff_toNat_le, UInt64.toNat_add]
  simp only [dedupWindow, UInt64.reduceToNat]
  omega

/-- An entry stays in the table as long as it is recent. -/
theorem stateAt_keeps {key : DedupKey} {res : ApplyResult} {i j : ℕ} (hij : i ≤ j)
    (hj : j ≤ cmds.length) (hrecent : ∀ k ≤ j, (stateAt cmds k).Recent key)
    (hi : (stateAt cmds i).applied.get key = some res) :
    (stateAt cmds j).applied.get key = some res := by
  induction j with
  | zero =>
    obtain rfl : i = 0 := by omega
    exact hi
  | succ j ih =>
    rcases hij.eq_or_lt with rfl | hlt
    · exact hi
    have hr := hrecent (j + 1) le_rfl
    rw [stateAt_succ (List.getElem?_eq_getElem (by omega))] at hr ⊢
    exact get_apply (ih (by omega) (by omega) fun k hk => hrecent k (by omega)) hr

/-- A command leaves its result in the table, or found one there. -/
theorem get_applied (ht : cmd.tracked = true) (h : (m.apply cmd).1.Recent cmd.dedupKey) :
    ∃ res, (m.apply cmd).1.applied.get cmd.dedupKey = some res := by
  rcases m.apply_cases cmd with ⟨prev, -, hp, ha⟩ | ⟨-, ha⟩
  · exact ⟨prev, by rw [ha]; exact hp⟩
  · exact ⟨_, get_ran ht h (by rw [ha]; exact execute_duplicate _ _)⟩

end Machine

open Machine in
/-- A request that ran at position `i` is answered at a later position `j` with the same result,
marked as a duplicate, and changes nothing, if no request of its client up to `j` is more than
the window ahead of it. -/
theorem exactly_once_in_window {cmds : List Command} {i j : ℕ} {first again : Command}
    (hi : cmds[i]? = some first) (hj : cmds[j]? = some again) (hij : i < j)
    (hclient : first.clientID ≠ []) (hreq : first.requestID ≠ 0)
    (hbound : first.requestID.toNat + 128 < 2 ^ 64)
    (hsame : again.clientID = first.clientID ∧ again.requestID = first.requestID)
    (hrun : ((stateAt cmds i).apply first).2.duplicate = false)
    (hwindow : ∀ k x, k ≤ j → cmds[k]? = some x → x.clientID = first.clientID →
      x.requestID.toNat ≤ first.requestID.toNat + 128) :
    (stateAt cmds j).apply again =
      (stateAt cmds j, { ((stateAt cmds i).apply first).2 with duplicate := true }) := by
  have htracked : first.tracked = true := by simp [Command.tracked, hclient, hreq]
  have hrecent : ∀ k ≤ j, (stateAt cmds k).Recent first.dedupKey := fun k hk =>
    recent_stateAt hbound fun l x hl hx hc => hwindow l x (by omega) hx hc
  -- from its first run on the entry stays in the table
  have hran : (stateAt cmds (i + 1)).applied.get first.dedupKey =
      some ((stateAt cmds i).apply first).2 := by
    have hr := hrecent (i + 1) hij
    rw [stateAt_succ hi] at hr ⊢
    exact get_ran htracked hr hrun
  have hget := stateAt_keeps hij (List.getElem?_eq_some_iff.mp hj).1.le hrecent hran
  have hkey : again.dedupKey = first.dedupKey := by
    rw [Command.dedupKey, Command.dedupKey, hsame.1, hsame.2]
  have htracked' : again.tracked = true := by
    simp [Command.tracked, hsame.1, hsame.2, hclient, hreq]
  exact apply_hit htracked' (hkey ▸ hget)

def retried : List Command :=
  [⟨opPut, [1], 5, [7], some [1], none⟩, ⟨opPut, [2], 9, [7], some [2], none⟩,
    ⟨opPut, [1], 5, [7], some [1], none⟩]

open Machine in
theorem exactly_once_in_window_retried :
    (stateAt retried 2).apply ⟨opPut, [1], 5, [7], some [1], none⟩ =
      (stateAt retried 2, ⟨true, none, true⟩) := by
  refine exactly_once_in_window (i := 0) (j := 2) (show retried[0]? = some _ from rfl)
    (show retried[2]? = some _ from rfl) (by decide) (by decide) (by decide) (by decide) ⟨rfl, rfl⟩
    (by decide) ?_
  intro k x hk hx hc
  obtain rfl | rfl | rfl : k = 0 ∨ k = 1 ∨ k = 2 := by omega
  all_goals
    obtain rfl := Option.some.inj hx
    revert hc
    decide

end KMC
