import KillMyCluster.Kv.Calls
import KillMyCluster.Kv.Refine

/-! One call, one effect. `propose` proposes its command again after a timeout while the first copy
may still be committed. Only the table of results keeps the second copy from running, and it knows
neither an empty client nor request 0. -/

namespace KMC

open LeaderLog Trace

variable {cfg : KvConfig} {g : Ghost} {s : KvState} {k : ℕ} {x : KvCall} {o o' : Outcome}

/-- A call that the table of results protects: it has a client and a request number, and no
command of that client that was applied is ahead of it by more than the window. -/
structure KvCall.Guarded (s : KvState) (x : KvCall) : Prop where
  client : x.cmd.clientID ≠ []
  request : x.cmd.requestID ≠ 0
  bound : x.cmd.requestID.toNat + 128 < 2 ^ 64
  fits : x.cmd.Fits
  window : ∀ o ∈ s.outcomes, ∀ cmd, Command.decode o.entry.data = .ok cmd →
    cmd.clientID = x.cmd.clientID → cmd.requestID.toNat ≤ x.cmd.requestID.toNat + 128

/-- The later of two copies finds the result of the earlier one. -/
theorem KvCall.Guarded.later_copy (h : x.Guarded s) (hi : cfg.raft.Inv g)
    (ho : o.Explained g s.outcomes) (ho' : o'.Explained g s.outcomes)
    (hd : o.entry.data = x.cmd.encode) (hd' : o'.entry.data = x.cmd.encode)
    (hlt : o.entry.index < o'.entry.index) : o'.after = o'.before := by
  have hdec : Command.decode x.cmd.encode = .ok x.cmd.norm := Command.decode_encode h.fits
  obtain ⟨es, cmds, cmd, hh, hlen, -, -⟩ := ho
  obtain ⟨es', cmds', cmd', hh', hlen', hl', happ'⟩ := ho'
  -- the earlier entry stands in the history of the later one
  have hentry : es'[es.length]? = some o.entry := by
    obtain ⟨T, hT⟩ := hh.committed
    obtain ⟨T', hT'⟩ := hh'.committed
    have hget : (es' ++ [o'.entry])[es.length]? = es'[es.length]? :=
      List.getElem?_append_left (by omega)
    obtain ⟨e, he⟩ : ∃ e, es'[es.length]? = some e :=
      ⟨_, List.getElem?_eq_getElem (by omega)⟩
    rw [he, hi.committed_unique hT' hT (hget.trans he) List.getElem?_concat_length]
  obtain ⟨c₁, hc₁, hd₁⟩ := hh'.command_at
    (show (es' ++ [o'.entry])[es.length]? = some o.entry by
      rw [List.getElem?_append_left (by omega), hentry])
  rw [hd, hdec] at hd₁
  obtain rfl := Except.ok.inj hd₁
  obtain ⟨c₂, hc₂, hd₂⟩ := hh'.command_at
    (show (es' ++ [o'.entry])[es'.length]? = some o'.entry from List.getElem?_concat_length)
  rw [hd', hdec] at hd₂
  obtain rfl := Except.ok.inj hd₂
  have hlens : es'.length = cmds'.length := by
    have := hh'.length_eq
    simpa using this
  have hlast : cmd' = x.cmd.norm := by
    rw [hlens, List.getElem?_concat_length] at hc₂
    exact Option.some.inj hc₂
  have hfirst : cmds'[es.length]? = some x.cmd.norm := by
    rwa [List.getElem?_append_left (by omega)] at hc₁
  have htracked : x.cmd.norm.tracked = true := by
    simp [Command.norm, Command.tracked, h.client, h.request]
  have hrecent : ∀ j ≤ cmds'.length, (Machine.stateAt cmds' j).Recent x.cmd.norm.dedupKey := by
    intro j _
    refine Machine.recent_stateAt h.bound fun l y _ hy hc => ?_
    obtain ⟨e, he, hde⟩ := hh'.entry_at (show (cmds' ++ [cmd'])[l]? = some y by
      rw [List.getElem?_append_left (List.getElem?_eq_some_iff.mp hy).1, hy])
    obtain ⟨o₁, ho₁, rfl⟩ := hh'.applied e he
    exact h.window o₁ ho₁ y hde hc
  -- it left its result in the table, and there it still is
  have hj : es.length + 1 ≤ cmds'.length := by omega
  obtain ⟨res, hres⟩ : ∃ res, (Machine.stateAt cmds' (es.length + 1)).applied.get
      x.cmd.norm.dedupKey = some res := by
    have hr := hrecent (es.length + 1) hj
    rw [Machine.stateAt_succ hfirst] at hr ⊢
    exact Machine.get_applied htracked hr
  have hkept := Machine.stateAt_keeps hj le_rfl hrecent hres
  rw [Machine.stateAt, List.take_length] at hkept
  have hbefore := hl'.get_applied x.cmd.norm.dedupKey
  rw [hkept] at hbefore
  obtain ⟨res', hres', -⟩ := Option.map_eq_some_iff.mp hbefore
  rw [hlast, Machine.apply_hit htracked hres'] at happ'
  exact (Prod.mk.inj happ').1.symm

theorem one_lt_length {α : Type} {l : List α} {y z : α} (hy : y ∈ l) (hz : z ∈ l) (hne : y ≠ z) :
    1 < l.length := by
  rcases l with _ | ⟨w, _ | ⟨w', l⟩⟩
  · cases hy
  · rw [List.mem_singleton] at hy hz
    exact absurd (hy.trans hz.symm) hne
  · simp

/-- However often a call was proposed and wherever its entries were applied, only one of them
changes a machine, if the call is guarded where it was proposed again. -/
theorem one_effect_per_call (hs : Reaches (kvStep cfg) (fun _ a => a.Reliable) cfg.init s)
    (hx : s.calls[k]? = some x) (hg : 1 < x.proposed.length → x.Guarded s) (ho : o ∈ s.outcomes)
    (ho' : o' ∈ s.outcomes) (hm : o.entry ∈ x.proposed) (hm' : o'.entry ∈ x.proposed)
    (hne : o.after ≠ o.before) (hne' : o'.after ≠ o'.before) : o.entry.index = o'.entry.index := by
  obtain ⟨g, hk, hr⟩ := kv_refines hs
  have hi := hk.sim.rel.inv
  have hdata : ∀ e ∈ x.proposed, e.data = x.cmd.encode :=
    hs.invariant (fun _ _ _ h _ => h.step) (proposed_init cfg) k x hx
  by_contra hidx
  have hagain := hg (one_lt_length hm hm' fun h => hidx (congrArg LogEntry.index h))
  rcases Nat.lt_or_gt_of_ne hidx with hlt | hgt
  · exact hne' (hagain.later_copy hi (hr.outcomes o ho) (hr.outcomes o' ho') (hdata _ hm)
      (hdata _ hm') hlt)
  · exact hne (hagain.later_copy hi (hr.outcomes o' ho') (hr.outcomes o ho) (hdata _ hm')
      (hdata _ hm) hgt)

/-- Node 1 of a pair proposes the put of a client, times out waiting for it, proposes the put of
another client and then the first one again; all three are committed and applied. -/
def putTwice (clientID : Bytes) (requestID : UInt64) : List KvAction :=
  onNodes electFirst ++
    [.call 1 (.put clientID requestID [7] (some [1])), .enqueue 0, .propose 1 0 {}, .register 0,
      .timeout 0, .call 1 (.put [2] 9 [7] (some [2])), .enqueue 1, .propose 1 0 {}, .register 1,
      .enqueue 0, .propose 1 0 {}, .register 0] ++
    onNodes [.replicate 1 2, .deliver 2 false {}, .respond 2 0 {}, .applierTake 1, .applierSend 1,
      .applierSend 1, .applierSend 1] ++
    [.take 1, .apply 1, .notify 1, .take 1, .apply 1, .notify 1, .receive 1, .take 1, .apply 1,
      .notify 1, .receive 0]

theorem putTwice_reliable (clientID : Bytes) (requestID : UInt64) :
    ∀ a ∈ putTwice clientID requestID, a.Reliable := by
  simp only [putTwice, List.forall_mem_append]
  refine ⟨⟨⟨reliable_onNodes electFirst_reliable, ?_⟩, reliable_onNodes ?_⟩, ?_⟩
  · simp [KvAction.Reliable]
  · simp [Action.Reliable, Action.io]
  · simp [KvAction.Reliable]

theorem guarded_put (hx : x.cmd = ⟨opPut, [1], 5, [7], some [1], none⟩)
    (hwindow : s.outcomes.all (fun o => match Command.decode o.entry.data with
      | .ok cmd => cmd.clientID ≠ [1] || cmd.requestID.toNat ≤ 5 + 128
      | .error _ => true) = true) : x.Guarded s := by
  refine ⟨?_, ?_, ?_, ⟨?_, ?_, ?_⟩, fun o ho cmd hd hc => ?_⟩ <;> rw [hx]
  iterate 6 decide
  have := List.all_eq_true.mp hwindow o ho
  simp only [hd] at this
  simpa [hc, hx] using this

def putTwiceBoth : List KvAction :=
  putTwice [1] 5 ++ onNodes [.replicate 1 2, .deliver 3 false {}, .applierTake 2, .applierSend 2] ++
    [.take 2, .apply 2]

theorem putTwiceBoth_reliable : ∀ a ∈ putTwiceBoth, a.Reliable := by
  simp only [putTwiceBoth, List.forall_mem_append]
  refine ⟨⟨putTwice_reliable _ _, reliable_onNodes ?_⟩, ?_⟩
  · simp [Action.Reliable, Action.io]
  · simp [KvAction.Reliable]

theorem one_effect_per_call_pair : ∃ s x o o',
    Reaches (kvStep .pair) (fun _ a => a.Reliable) KvConfig.pair.init s ∧
    s.calls[0]? = some x ∧ x.proposed.map LogEntry.index = [1, 3] ∧ o ∈ s.outcomes ∧
    o' ∈ s.outcomes ∧ o.server = 1 ∧ o'.server = 2 ∧ o.entry ∈ x.proposed ∧
    o'.entry ∈ x.proposed ∧ o.after ≠ o.before ∧ o'.after ≠ o'.before ∧
    o.entry.index = o'.entry.index := by
  have hs := Reaches.of_exec (kvStep .pair) (fun _ a => a.Reliable) KvConfig.pair.init putTwiceBoth
    (.of_forall (fun _ => putTwiceBoth_reliable) _) rfl
  have hx := show (((exec (kvStep .pair) KvConfig.pair.init putTwiceBoth).get rfl).calls)[0]? =
    some _ from rfl
  have ho := List.mem_of_getElem? (show (((exec (kvStep .pair) KvConfig.pair.init
    putTwiceBoth).get rfl).outcomes)[0]? = some _ from rfl)
  have ho' := List.mem_of_getElem? (show (((exec (kvStep .pair) KvConfig.pair.init
    putTwiceBoth).get rfl).outcomes)[3]? = some _ from rfl)
  exact ⟨_, _, _, _, hs, hx, rfl, ho, ho', rfl, rfl, by decide, by decide, by decide, by decide,
    one_effect_per_call hs hx (fun _ => guarded_put rfl rfl) ho ho' (by decide) (by decide)
      (by decide) (by decide)⟩

/-- A put without a request number runs twice: the second time it overwrites the put of another
client that was acknowledged in between. -/
theorem two_effects_of_one_call : ∃ s x o o',
    Reaches (kvStep .pair) (fun _ a => a.Reliable) KvConfig.pair.init s ∧
    s.calls[0]? = some x ∧ x.cmd = ⟨opPut, [1], 0, [7], some [1], none⟩ ∧ o ∈ s.outcomes ∧
    o' ∈ s.outcomes ∧ o.entry ∈ x.proposed ∧ o'.entry ∈ x.proposed ∧ o.after ≠ o.before ∧
    o'.after ≠ o'.before ∧ o.entry.index ≠ o'.entry.index ∧
    (s.calls[1]?.bind fun y => y.status.result) = some ⟨true, some [1], false⟩ ∧
    (s.kvs 1).machine.get [7] = (some [1], true) := by
  have hs := Reaches.of_exec (kvStep .pair) (fun _ a => a.Reliable) KvConfig.pair.init
    (putTwice [1] 0) (.of_forall (fun _ => putTwice_reliable _ _) _) rfl
  have hx := show (((exec (kvStep .pair) KvConfig.pair.init (putTwice [1] 0)).get rfl).calls)[0]? =
    some _ from rfl
  have ho := List.mem_of_getElem? (show (((exec (kvStep .pair) KvConfig.pair.init
    (putTwice [1] 0)).get rfl).outcomes)[0]? = some _ from rfl)
  have ho' := List.mem_of_getElem? (show (((exec (kvStep .pair) KvConfig.pair.init
    (putTwice [1] 0)).get rfl).outcomes)[2]? = some _ from rfl)
  exact ⟨_, _, _, _, hs, hx, rfl, ho, ho', by decide, by decide, by decide, by decide, by decide,
    rfl, rfl⟩

end KMC
