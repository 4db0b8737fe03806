import KillMyCluster.Sim.Run

/-! State machine safety: all nodes, at all times, deliver the commands of one sequence. -/

namespace KMC

open LeaderLog Trace

variable {K : Setting} {g g' : Ghost} {s t : State} {T : ℕ}

/-- The message says what `history` says: a command stands at its index, an image for all the
commands up to its index. -/
def Records (stands : Bytes → List Bytes) (history : ℕ → Bytes) : ApplyMsg → Prop
  | .command e => 1 ≤ e.index ∧ e.data = history e.index
  | .snapshot snap => stands snap.data = (List.range snap.index).map fun i => history (i + 1)

/-! ## What was delivered by a process that is dead -/

theorem State.setServer_sent {q : ℕ} {srv : Server} {p : ℕ}
    (h : srv.proc = none → srv.sent = (s.servers q).sent) (hp : (s.setServer q srv).node p = none) :
    ((s.setServer q srv).servers p).sent = (s.servers p).sent := by
  by_cases hq : p = q
  · subst hq
    simp only [State.node, State.setServer, Function.update_self] at hp ⊢
    exact h hp
  · simp [State.setServer, hq]

/-- Only a living process delivers or starts anew. -/
theorem step_sent {cfg : Config} {a : Action} (hs : step cfg s a = some t) {p : ℕ}
    (hp : t.node p = none) : (t.servers p).sent = (s.servers p).sent := by
  rcases step_cases hs with ⟨q, io, n, e, -, hsec⟩ | ⟨q, srv, hch, rfl⟩
  · by_cases hq : p = q
    · subst hq
      rcases hsec.server with ⟨-, hsrv⟩ | ⟨k, r, -, hsrv⟩ <;> simp [hsrv, Server.die]
    · rw [hsec.other hq]
  · refine State.setServer_sent (fun hdead => ?_) hp
    cases hch <;> first | rfl | cases hdead

/-- What every server, dead or alive, has handed to its state machine is committed. -/
def Setting.Sent (K : Setting) (g : Ghost) (s : State) : Prop :=
  ∀ p, ∃ T i, K.Delivered g T (s.servers p).sent i

theorem Setting.Sent.mono (hi : K.cfg.Inv g) (hg : Grew g g') (h : K.Sent g s) : K.Sent g' s := by
  intro p
  obtain ⟨T, i, hd⟩ := h p
  exact ⟨T, i, hd.mono hi hg le_rfl⟩

theorem Setting.Sent.step (h : K.Sent g s) (hi : K.cfg.Inv g) (hg : Grew g g') (h' : K.Sim g' t)
    {a : Action} (hs : KMC.step K.cfg s a = some t) : K.Sent g' t := by
  intro p
  cases hp : t.node p with
  | none =>
    rw [step_sent hs hp]
    exact h.mono hi hg p
  | some n =>
    obtain ⟨i, hd, -⟩ := (h'.rel.up p n hp).delivered
    obtain ⟨j, hj⟩ := hd.take (t.servers p).sent.length
    rw [List.take_left] at hj
    exact ⟨_, j, hj⟩

theorem Setting.Sent.run (h : K.Sim g s) (hsent : K.Sent g s) {acts : List Action}
    (hrun : Run (KMC.step K.cfg) K.Allowed s acts t) :
    ∃ g', Grew g g' ∧ K.Sim g' t ∧ K.Sent g' t := by
  induction hrun with
  | nil => exact ⟨g, Grows.refl g, h, hsent⟩
  | snoc _ ha hs ih =>
    obtain ⟨g₁, hg₁, h₁, hsent₁⟩ := ih
    obtain ⟨g₂, ⟨hg₂, -⟩, h₂⟩ := h₁.step ha hs
    exact ⟨g₂, hg₁.trans hg₂, h₂, hsent₁.step h₁.rel.inv hg₂ h₂ hs⟩

/-! ## One sequence of commands -/

/-- The command at index `i` in whatever prefix was committed. -/
noncomputable def chosen (g : Ghost) (i : ℕ) : Bytes :=
  Classical.epsilon fun x => ∃ T L e, Committed g T L ∧ L[i - 1]? = some e ∧ e.data = x

theorem Config.Inv.chosen_eq {cfg : Config} (hi : cfg.Inv g) {L : List LogEntry} {k : ℕ}
    {e : LogEntry} (hc : Committed g T L) (he : L[k]? = some e) : chosen g (k + 1) = e.data := by
  obtain ⟨T', c', e', hc', he', hx⟩ := Classical.epsilon_spec (p := fun x =>
    ∃ T L e, Committed g T L ∧ L[k + 1 - 1]? = some e ∧ e.data = x) ⟨e.data, T, L, e, hc, he, rfl⟩
  rw [Nat.add_sub_cancel] at he'
  rw [hi.committed_unique hc hc' he he']
  exact hx.symm

theorem Setting.SnapOK.records (hi : K.cfg.Inv g) (hh : K.honest) {snap : Snapshot}
    (h : K.SnapOK g T snap) : Records K.stands (chosen g) (.snapshot snap) := by
  obtain ⟨L, hc, hlen, -, hst⟩ := h
  change K.stands snap.data = _
  rw [hst hh, ← hlen]
  refine List.ext_getElem (by simp) fun k hk hk' => ?_
  simp only [List.getElem_map, List.getElem_range]
  exact (hi.chosen_eq hc (List.getElem?_eq_getElem (by simpa using hk))).symm

theorem Setting.Delivered.records (hi : K.cfg.Inv g) (hh : K.honest) {ms : List ApplyMsg} {i : ℕ}
    (h : K.Delivered g T ms i) : ∀ m ∈ ms, Records K.stands (chosen g) m := by
  induction h with
  | nil => simp
  | @command ms i L e _ hc hlen hidx ih =>
    intro m hm
    rcases List.mem_append.mp hm with hm | hm
    · exact ih m hm
    · obtain rfl := List.mem_singleton.mp hm
      refine ⟨by omega, ?_⟩
      rw [hidx, hi.chosen_eq hc (k := i) (e := e) (by simp [← hlen])]
  | snapshot _ hs ih =>
    intro m hm
    rcases List.mem_append.mp hm with hm | hm
    · exact ih m hm
    · obtain rfl := List.mem_singleton.mp hm
      exact hs.records hi hh

/-- Whatever two states of a run have delivered anywhere, it is one sequence of commands. -/
theorem state_machine_safety {cfg : Config} {stands : Bytes → List Bytes} {a b : State}
    (ha : Reaches (step cfg) (Sound stands) cfg.init a)
    (hb : Reaches (step cfg) (Sound stands) a b) :
    ∃ history : ℕ → Bytes, ∀ p m, m ∈ (a.servers p).sent ∨ m ∈ (b.servers p).sent →
      Records stands history m := by
  let K : Setting := ⟨cfg, stands, True, False, False⟩
  have hK : ∀ s x, Sound stands s x → K.Allowed s x := fun s x h =>
    ⟨h.1, fun _ => h.2, False.elim, False.elim⟩
  obtain ⟨_, ha⟩ := ha
  obtain ⟨_, hb⟩ := hb
  have hsent : K.Sent State.init cfg.init := fun p => ⟨0, 0, .nil⟩
  obtain ⟨g, -, h, hs⟩ := hsent.run K.sim_init (ha.imp hK)
  obtain ⟨g', hg, h', hs'⟩ := hs.run h (hb.imp hK)
  refine ⟨chosen g', fun p m hm => ?_⟩
  rcases hm with hm | hm
  · obtain ⟨T, i, hd⟩ := hs.mono h.rel.inv hg p
    exact hd.records h'.rel.inv trivial m hm
  · obtain ⟨T, i, hd⟩ := hs' p
    exact hd.records h'.rel.inv trivial m hm

/-- Node 3 of a trio loads an image instead of the first command. -/
def loadsImage : List Action :=
  [.replicate 1 3, .deliver 5 false {}, .applierTake 3, .applierSend 3]

theorem state_machine_safety_trio : ∃ a b,
    Reaches (step .trio) (Sound fun d => [d]) Config.trio.init a ∧
    Reaches (step .trio) (Sound fun d => [d]) a b ∧ (a.servers 1).sent = [.command ⟨1, 1, [7]⟩] ∧
    (b.servers 3).sent = [.snapshot ⟨1, 1, [7]⟩] ∧
    ∃ history : ℕ → Bytes, ∀ p m, m ∈ (a.servers p).sent ∨ m ∈ (b.servers p).sent →
      Records (fun d => [d]) history m := by
  have hrun := Run.get (step .trio) (Sound fun d => [d]) Config.trio.init trioCommit
    (.of_forall (by simp [trioCommit, Sound, Action.Reliable, Action.Honest, Action.io]) _) rfl
  -- the image is that of the command it covers
  have ha := hrun.snoc (a := Action.snapshot 1 1 [7] {}) ⟨rfl, 1, rfl⟩ (Option.some_get rfl).symm
  obtain ⟨a, b, ha, hb, hcommand, himage⟩ : ∃ a b,
      Reaches (step .trio) (Sound fun d => [d]) Config.trio.init a ∧
      Reaches (step .trio) (Sound fun d => [d]) a b ∧
      (a.servers 1).sent = [.command ⟨1, 1, [7]⟩] ∧ (b.servers 3).sent = [.snapshot ⟨1, 1, [7]⟩] :=
    ⟨_, _, ⟨_, ha⟩, ⟨_, Run.get (step .trio) (Sound fun d => [d]) _ loadsImage
      (.of_forall (by simp [loadsImage, Sound, Action.Reliable, Action.Honest, Action.io]) _) rfl⟩,
      rfl, rfl⟩
  exact ⟨a, b, ha, hb, hcommand, himage, state_machine_safety ha hb⟩

end KMC
