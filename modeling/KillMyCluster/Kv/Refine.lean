import KillMyCluster.Durable.Images
import KillMyCluster.Kv.Runs

/-! The replicated machine. However a process came by its machine, by applying commands, by
restoring an image of another's, or both, it is like one that applied the committed commands from
the first on; and each of those commands was applied somewhere. -/

namespace KMC

open LeaderLog Trace

variable {cfg : KvConfig} {g g' : Ghost} {s t : KvState} {a : KvAction} {p i : ℕ}
  {outs outs' : List Outcome} {es : List LogEntry} {cmds : List Command} {m : Machine}
  {e : LogEntry} {cmd : Command}

/-! ## Committed histories -/

/-- Committed entries from the first on, the commands they hold, and that each was applied. -/
structure History (g : Ghost) (outs : List Outcome) (es : List LogEntry) (cmds : List Command) :
    Prop where
  committed : ∃ T, Committed g T es
  decoded : es.map (fun e => Command.decode e.data) = cmds.map Except.ok
  applied : ∀ e ∈ es, ∃ o ∈ outs, o.entry = e

/-- A machine like the one that applied the first `i` committed commands. -/
def Built (g : Ghost) (outs : List Outcome) (m : Machine) (i : ℕ) : Prop :=
  ∃ es cmds, History g outs es cmds ∧ es.length = i ∧ m.Like (newMachine.applyAll cmds).1 ∧ m.Clean

def Outcome.Explained (g : Ghost) (outs : List Outcome) (o : Outcome) : Prop :=
  ∃ es cmds cmd, History g outs (es ++ [o.entry]) (cmds ++ [cmd]) ∧
    es.length + 1 = o.entry.index ∧ o.before.Like (newMachine.applyAll cmds).1 ∧
    o.before.apply cmd = (o.after, o.result)

theorem history_nil (g : Ghost) (outs : List Outcome) : History g outs [] [] :=
  ⟨⟨0, committed_nil g 0⟩, rfl, by simp⟩

theorem History.mono (h : History g outs es cmds) (hi : cfg.raft.Inv g) (hg : Grew g g')
    (ho : outs ⊆ outs') : History g' outs' es cmds where
  committed := by
    obtain ⟨T, hT⟩ := h.committed
    exact ⟨T, hT.mono hi hg le_rfl⟩
  decoded := h.decoded
  applied e he := by
    obtain ⟨o, hm, rfl⟩ := h.applied e he
    exact ⟨o, ho hm, rfl⟩

theorem History.length_eq (h : History g outs es cmds) : es.length = cmds.length := by
  simpa using congrArg List.length h.decoded

theorem History.command_at (h : History g outs es cmds) {k : ℕ} (he : es[k]? = some e) :
    ∃ cmd, cmds[k]? = some cmd ∧ Command.decode e.data = .ok cmd := by
  have hk := congrArg (·[k]?) h.decoded
  simp only [List.getElem?_map, he, Option.map_some] at hk
  obtain ⟨cmd, hc, hd⟩ := Option.map_eq_some_iff.mp hk.symm
  exact ⟨cmd, hc, hd.symm⟩

theorem History.entry_at (h : History g outs es cmds) {k : ℕ} (hc : cmds[k]? = some cmd) :
    ∃ e ∈ es, Command.decode e.data = .ok cmd := by
  have hk := (List.getElem?_eq_some_iff.mp hc).1
  rw [← h.length_eq] at hk
  obtain ⟨cmd', hc', hd⟩ := h.command_at (List.getElem?_eq_getElem hk)
  obtain rfl := Option.mem_unique hc hc'
  exact ⟨_, List.getElem_mem hk, hd⟩

/-- The next committed entry. -/
theorem History.snoc (h : History g outs es cmds) (hi : cfg.raft.Inv g) {T : ℕ} {L : List LogEntry}
    (hL : Committed g T L) (he : L[es.length]? = some e) (hd : Command.decode e.data = .ok cmd)
    (ho : ∃ o ∈ outs, o.entry = e) : History g outs (es ++ [e]) (cmds ++ [cmd]) where
  committed := by
    obtain ⟨T', hT'⟩ := h.committed
    have hlt := (List.getElem?_eq_some_iff.mp he).1
    have hpre : es <+: L := by
      rcases hi.committed_comparable hT' hL with hp | hp
      · exact hp
      · have := hp.length_le
        omega
    have htake : es ++ [e] = L.take (es.length + 1) := by
      rw [List.take_add_one, he, ← List.prefix_iff_eq_take.mp hpre]
      rfl
    exact ⟨T, hL.shorter (htake ▸ List.take_prefix _ _)⟩
  decoded := by simp [h.decoded, hd]
  applied x hx := by
    rcases List.mem_append.mp hx with hx | hx
    · exact h.applied x hx
    · obtain rfl := List.mem_singleton.mp hx
      exact ho

theorem built_new (g : Ghost) (outs : List Outcome) : Built g outs newMachine 0 :=
  ⟨[], [], history_nil g outs, rfl, .refl _, Machine.clean_new⟩

theorem Built.mono (h : Built g outs m i) (hi : cfg.raft.Inv g) (hg : Grew g g')
    (ho : outs ⊆ outs') : Built g' outs' m i := by
  obtain ⟨es, cmds, hh, hrest⟩ := h
  exact ⟨es, cmds, hh.mono hi hg ho, hrest⟩

theorem Outcome.Explained.mono {o : Outcome} (h : o.Explained g outs) (hi : cfg.raft.Inv g)
    (hg : Grew g g') (ho : outs ⊆ outs') : o.Explained g' outs' := by
  obtain ⟨es, cmds, cmd, hh, hrest⟩ := h
  exact ⟨es, cmds, cmd, hh.mono hi hg ho, hrest⟩

theorem Built.like {m' : Machine} (h : Built g outs m i) (hm : m.Like m') : Built g outs m' i := by
  obtain ⟨es, cmds, hh, hlen, hl, hc⟩ := h
  exact ⟨es, cmds, hh, hlen, hm.symm.trans hl, hm.clean hc⟩

theorem Built.clean (h : Built g outs m i) : m.Clean := by
  obtain ⟨_, _, -, -, -, hc⟩ := h
  exact hc

theorem Built.apply (h : Built g outs m i) (hi : cfg.raft.Inv g) {T : ℕ} {L : List LogEntry}
    (hL : Committed g T L) (he : L[i]? = some e) (hd : Command.decode e.data = .ok cmd)
    (ho : ∃ o ∈ outs, o.entry = e) : Built g outs (m.apply cmd).1 (i + 1) := by
  obtain ⟨es, cmds, hh, rfl, hl, hc⟩ := h
  refine ⟨es ++ [e], cmds ++ [cmd], hh.snoc hi hL he hd ho, by simp, ?_, hc.apply cmd⟩
  rw [Machine.applyAll_append]
  exact (hl.apply cmd).1

/-! ## Runs -/

/-- Images that restore to what was applied when they were taken. -/
def TrueImage (cfg : KvConfig) (g : Ghost) (outs : List Outcome) (snap : Snapshot) : Prop :=
  ∀ onto : Machine, ∃ m, onto.restore cfg.gob snap.data = some m ∧ Built g outs m snap.index

structure Refines (cfg : KvConfig) (g : Ghost) (s : KvState) : Prop where
  machines : ∀ p, Built g s.outcomes (s.kvs p).machine (lastSent (s.given p))
  busy : ∀ p i, (s.kvs p).applier.index = some i → i = lastSent (s.given p)
  images : Imaged (TrueImage cfg g s.outcomes) s.raft
  outcomes : ∀ o ∈ s.outcomes, o.Explained g s.outcomes

theorem refines_init (cfg : KvConfig) : Refines cfg State.init cfg.init where
  machines _ := built_new _ _
  busy _ _ h := by cases h
  images := imaged_init cfg.raft
  outcomes := by simp [KvConfig.init]

theorem TrueImage.mono {snap : Snapshot} (h : TrueImage cfg g outs snap) (hi : cfg.raft.Inv g)
    (hg : Grew g g') (ho : outs ⊆ outs') : TrueImage cfg g' outs' snap := by
  intro onto
  obtain ⟨m, hm, hb⟩ := h onto
  exact ⟨m, hm, hb.mono hi hg ho⟩

/-- The only new outcome is that of a command which a running process is given. -/
theorem kvStep_outcomes (hs : kvStep cfg s a = some t) : t.outcomes = s.outcomes ∨
    ∃ p n e cmd, s.raft.node p = some n ∧ t.raft = s.raft ∧
      (s.raft.servers p).sent[(s.kvs p).taken]? = some (.command e) ∧
      Command.decode e.data = .ok cmd ∧
      t.outcomes = s.outcomes ++ [⟨p, (s.raft.servers p).epoch, n.commitIndex, e,
        (s.kvs p).machine, ((s.kvs p).machine.apply cmd).1, ((s.kvs p).machine.apply cmd).2⟩] := by
  cases kvStep_cases hs with
  | @apply p n e cmd hn _ hmsg hd => exact .inr ⟨p, n, e, cmd, hn, rfl, hmsg, hd, rfl⟩
  | _ => exact .inl rfl

theorem kvStep_outcomes_subset (hs : kvStep cfg s a = some t) : s.outcomes ⊆ t.outcomes := by
  rcases kvStep_outcomes hs with h | ⟨_, _, _, _, -, -, -, -, h⟩ <;> rw [h]
  · exact List.Subset.refl _
  · exact List.subset_append_left _ _

/-- A snapshot that the nodes get is the image of a machine that is compacting. -/
theorem kvStep_snapshot (hs : kvStep cfg s a = some t) : Follows cfg s t.raft fun x =>
    ∀ p index data io, x = .snapshot p index data io →
      (s.kvs p).applier = .compacting index ∧ (s.kvs p).machine.snapshot cfg.gob = some data := by
  cases kvStep_cases hs with
  | @reads b u hb hr =>
    refine readStep_follows hr fun x hx p index data io heq => ?_
    subst heq
    cases b with
    | cluster y =>
      obtain rfl := Option.some.inj hx
      cases hb
    | beat | ack | confirmed => cases Option.some.inj hx
    | _ => cases hx
  | propose _ hr =>
    refine readStep_follows hr fun x hx p index data io heq => ?_
    subst heq
    cases Option.some.inj hx
  | panics hr =>
    refine readStep_follows hr fun x hx p index data io heq => ?_
    subst heq
    cases Option.some.inj hx
  | compact _ happ hraw hr =>
    refine readStep_follows hr fun x hx p index data io heq => ?_
    subst heq
    cases Option.some.inj hx
    exact ⟨happ, hraw⟩
  | _ => exact .inl rfl

/-- A command on the channel is the next committed entry. -/
theorem KvSim.command_committed (h : KvSim cfg g s)
    (hmsg : (s.raft.servers p).sent[(s.kvs p).taken]? = some (.command e)) :
    e.index = lastSent (s.given p) + 1 ∧
      ∃ T L, Committed g T L ∧ L[lastSent (s.given p)]? = some e := by
  obtain ⟨i, hi⟩ := h.sends.sent p
  obtain ⟨T, j, hd⟩ := h.sent p
  have hidx : e.index = lastSent (s.given p) + 1 := hi.command_at hmsg
  obtain ⟨L, hL, -, heL⟩ := hd.committed (List.mem_of_getElem? hmsg)
  rw [hidx, Nat.add_sub_cancel] at heL
  exact ⟨hidx, T, L, hL, heL⟩

theorem lastSent_concat (ms : List ApplyMsg) (msg : ApplyMsg) :
    lastSent (ms ++ [msg]) = msg.index := by
  simp [lastSent]

/-- The messages a machine was given, after a step. -/
theorem Fed.given_eq (hf : Fed cfg s) (hs : kvStep cfg s a = some t) (p : ℕ) :
    (∃ msg, t.given p = s.given p ++ [msg] ∧ t.raft = s.raft ∧
      (s.raft.servers p).sent[(s.kvs p).taken]? = some msg ∧
      msg.handle cfg.gob (s.kvs p).machine = some (t.kvs p).machine ∧
      ((t.kvs p).applier.index = none ∨ (t.kvs p).applier.index = some msg.index) ∧
      ∀ e, msg = .command e → ∃ o ∈ t.outcomes, o.entry = e) ∨
    (t.given p = s.given p ∧ (t.kvs p).machine = (s.kvs p).machine ∧
      ((t.kvs p).applier.index = none ∨ (t.kvs p).applier.index = (s.kvs p).applier.index)) ∨
    t.given p = [] ∧ (t.kvs p).machine = newMachine ∧ (t.kvs p).applier.index = none := by
  cases kvStep_server hs p with
  | fresh hkv hsent _ =>
    refine .inr (.inr ?_)
    rw [KvState.given, hkv, hsent]
    exact ⟨rfl, rfl, rfl⟩
  | keeps _ hsent hm ht happ =>
    refine .inr (.inl ⟨?_, hm, happ⟩)
    obtain ⟨rest, hrest⟩ := hsent
    rw [KvState.given, ht, ← hrest, List.take_append_of_le_length (hf.taken p)]
    rfl
  | @given msg hraft hmsg hh ht happ hout =>
    refine .inl ⟨msg, ?_, hraft, hmsg, hh, happ, hout⟩
    rw [KvState.given, hraft, ht, List.take_add_one, hmsg]
    rfl

theorem Refines.step (h : Refines cfg g s) (hf : Fed cfg s) (hk : KvSim cfg g s)
    (hk' : KvSim cfg g' t) (hg : Grew g g') (hs : kvStep cfg s a = some t) : Refines cfg g' t := by
  have hi := hk.sim.rel.inv
  have hsub := kvStep_outcomes_subset hs
  have himages : Imaged (TrueImage cfg g' t.outcomes) s.raft :=
    h.images.imp fun snap hsnap => hsnap.mono hi hg hsub
  refine ⟨fun p => ?_, fun p i hidx => ?_, ?_, fun o ho => ?_⟩
  · have hold := (h.machines p).mono hi hg hsub
    rcases hf.given_eq hs p with ⟨msg, hgiven, -, hmsg, hh, -, hout⟩ | ⟨hgiven, hm, -⟩ |
      ⟨hgiven, hm, -⟩
    · rw [hgiven, lastSent_concat]
      cases msg with
      | snapshot snap =>
        obtain ⟨m, hm, hb⟩ := (himages.servers p).msgs snap
          (List.mem_append_left _ (List.mem_of_getElem? hmsg)) (s.kvs p).machine
        obtain rfl := Option.mem_unique hm hh
        exact hb
      | command e =>
        obtain ⟨hidx, T, L, hL, he⟩ := hk.command_committed hmsg
        simp only [ApplyMsg.handle] at hh
        split at hh
        · rename_i cmd hd
          rw [← Option.some.inj hh, ApplyMsg.index, hidx]
          exact hold.apply hk'.sim.rel.inv (hL.mono hi hg le_rfl) he hd (hout e rfl)
        · cases hh
    · rw [hgiven, hm]
      exact hold
    · rw [hgiven, hm]
      exact built_new _ _
  · rcases hf.given_eq hs p with ⟨msg, hgiven, -, -, -, happ, -⟩ | ⟨hgiven, -, happ⟩ | ⟨-, -, happ⟩
    · rw [hgiven, lastSent_concat]
      rcases happ with happ | happ <;> rw [happ] at hidx
      · cases hidx
      · exact (Option.some.inj hidx).symm
    · rw [hgiven]
      rcases happ with happ | happ <;> rw [happ] at hidx
      · cases hidx
      · exact h.busy p i hidx
    · rw [happ] at hidx
      cases hidx
  · rcases kvStep_snapshot hs with heq | ⟨x, hx, hsnap⟩
    · exact heq ▸ himages
    · refine himages.step hx fun p index data io heq term onto => ?_
      obtain ⟨happ, hraw⟩ := hsnap p index data io heq
      have hb := (h.machines p).mono hi hg hsub
      rw [← h.busy p index (by rw [happ]; rfl)] at hb
      obtain ⟨m', hm', hl⟩ := Machine.restore_snapshot hb.clean hraw onto
      exact ⟨m', hm', hb.like hl⟩
  · rcases kvStep_outcomes hs with hout | ⟨p, n, e, cmd, hn, -, hmsg, hd, hout⟩
    · exact (h.outcomes o (hout ▸ ho)).mono hi hg hsub
    rw [hout] at ho
    rcases List.mem_append.mp ho with ho | ho
    · exact (h.outcomes o ho).mono hi hg hsub
    obtain rfl := List.mem_singleton.mp ho
    obtain ⟨hidx, T, L, hL, he⟩ := hk.command_committed hmsg
    obtain ⟨es, cmds, hh, hlen, hl, -⟩ := (h.machines p).mono hi hg hsub
    refine ⟨es, cmds, cmd, ?_, by simp only [hidx, hlen], hl, rfl⟩
    refine hh.snoc hk'.sim.rel.inv (hL.mono hi hg le_rfl) (hlen ▸ he) hd ⟨_, ?_, rfl⟩
    rw [hout]
    exact List.mem_append_right _ (List.mem_singleton.mpr rfl)

/-- In every run, machines, images and outcomes are those of one committed history. -/
theorem kv_refines (hs : Reaches (kvStep cfg) (fun _ a => a.Reliable) cfg.init s) :
    ∃ g, KvSim cfg g s ∧ Refines cfg g s := by
  obtain ⟨g, hk, -, hr⟩ := KvSim.invariant (I := fun g s => Fed cfg s ∧ Refines cfg g s)
    (fun _ _ h => h) ⟨fed_init cfg, refines_init cfg⟩
    (fun g g' s a t hk hk' hg h _ ht => ⟨h.1.step ht, h.2.step h.1 hk hk' hg ht⟩) hs
  exact ⟨g, hk, hr⟩

end KMC
