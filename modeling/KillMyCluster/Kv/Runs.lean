import KillMyCluster.Kv.Cluster
import KillMyCluster.Kv.Converge
import KillMyCluster.Read.Fresh
import KillMyCluster.Safety.Order

/-! Runs of `kv.Cluster` as runs of the Raft nodes below, and what a process's machine has to do
with the messages that its node sent: it has been given a prefix of them, one after the other. -/

namespace KMC

open LeaderLog Trace

variable {cfg : KvConfig} {s t : KvState} {a : KvAction} {p : ℕ} {r : ReadState}

/-! ## The nodes below -/

/-- Every persister call succeeds or the process dies in it. -/
def KvAction.Reliable : KvAction → Prop
  | .reads a => a.Reliable
  | .propose _ _ io | .compact _ io => io.fault = fun _ => none
  | _ => True

theorem reliable_onNodes {acts : List Action} (h : ∀ x ∈ acts, x.Reliable) :
    ∀ a ∈ onNodes acts, a.Reliable := by
  simpa [onNodes, KvAction.Reliable, ReadAction.Reliable, ReadAction.act] using h

theorem electFirst_reliable : ∀ x ∈ electFirst, x.Reliable := by
  simp [electFirst, Action.Reliable, Action.io]

theorem firstPut_reliable : ∀ a ∈ firstPut, a.Reliable := by
  simp only [firstPut, List.forall_mem_append]
  refine ⟨⟨reliable_onNodes electFirst_reliable, ?_⟩, reliable_onNodes ?_⟩
  · simp [KvAction.Reliable]
  · simp [Action.Reliable, Action.io]

def Follows (cfg : KvConfig) (s : KvState) (r : State) (P : Action → Prop) : Prop :=
  r = s.raft ∨ ∃ b, step cfg.raft s.raft b = some r ∧ P b

theorem readStep_follows {b : ReadAction} (h : readStep cfg.raft s.reads b = some r)
    {P : Action → Prop} (hP : ∀ x ∈ b.act, P x) : Follows cfg s r.base P := by
  rcases readStep_base h with heq | ⟨x, hx, hs⟩
  · exact .inl heq
  · exact .inr ⟨x, hs, hP x hx⟩

theorem kvStep_raft (h : kvStep cfg s a = some t) :
    Follows cfg s t.raft fun x => a.Reliable → x.Reliable := by
  cases kvStep_cases h with
  | reads _ hr => exact readStep_follows hr fun x hx ha => ha x hx
  | propose _ hr =>
    refine readStep_follows hr fun x hx ha => ?_
    obtain rfl := Option.some.inj hx
    exact ha
  | panics hr =>
    refine readStep_follows hr fun x hx _ => ?_
    obtain rfl := Option.some.inj hx
    rfl
  | compact _ _ _ hr =>
    refine readStep_follows hr fun x hx ha => ?_
    obtain rfl := Option.some.inj hx
    exact ha
  | _ => exact .inl rfl

def KvConfig.setting (cfg : KvConfig) : Setting := ⟨cfg.raft, fun _ => [], False, False, False⟩

theorem KvConfig.allowed (cfg : KvConfig) {s : State} {x : Action} (h : x.Reliable) :
    cfg.setting.Allowed s x := ⟨h, False.elim, False.elim, False.elim⟩

/-- The nodes follow one abstract log and send what is committed, in order. -/
structure KvSim (cfg : KvConfig) (g : Ghost) (s : KvState) : Prop where
  sim : cfg.setting.Sim g s.raft
  sends : SendsAll s.raft
  sent : cfg.setting.Sent g s.raft

theorem kvSim_init (cfg : KvConfig) : KvSim cfg State.init cfg.init :=
  ⟨cfg.setting.sim_init,
    ⟨by simp [KvConfig.init, KvState.raft, Config.init, State.node], fun _ => ⟨0, .nil⟩⟩,
    fun _ => ⟨0, 0, .nil⟩⟩

theorem KvSim.step {g : Ghost} (h : KvSim cfg g s) (ha : a.Reliable)
    (hs : kvStep cfg s a = some t) : ∃ g', Grew g g' ∧ KvSim cfg g' t := by
  rcases kvStep_raft hs with heq | ⟨x, hx, hrel⟩
  · exact ⟨g, .refl g, heq ▸ h.sim, heq ▸ h.sends, heq ▸ h.sent⟩
  · obtain ⟨g', hl, h'⟩ := h.sim.step (cfg.allowed (hrel ha)) hx
    exact ⟨g', hl.grew, h', h.sim.sends h.sends hx, h.sent.step h.sim.rel.inv hl.grew h' hx⟩

/-- An invariant that speaks of the abstract log, over a run. -/
theorem KvSim.invariant {I : Ghost → KvState → Prop} {P : KvState → KvAction → Prop}
    (hP : ∀ s a, P s a → a.Reliable)
    (hinit : I State.init cfg.init)
    (hstep : ∀ g g' s a t, KvSim cfg g s → KvSim cfg g' t → Grew g g' → I g s → P s a →
      kvStep cfg s a = some t → I g' t)
    (h : Reaches (kvStep cfg) P cfg.init s) : ∃ g, KvSim cfg g s ∧ I g s := by
  refine h.invariant (I := fun s => ∃ g, KvSim cfg g s ∧ I g s) ?_ ⟨_, kvSim_init cfg, hinit⟩
  rintro s a t ⟨g, hg, hi⟩ ha hs
  obtain ⟨g', hgr, hg'⟩ := hg.step (hP s a ha) hs
  exact ⟨g', hg', hstep g g' s a t hg hg' hgr hi ha hs⟩

/-! ## The machine of a process -/

/-- `handleApply` on the machine; `none` where it panics. -/
def ApplyMsg.handle (gob : Gob) (m : Machine) : ApplyMsg → Option Machine
  | .snapshot snap => m.restore gob snap.data
  | .command e => match Command.decode e.data with
    | .ok cmd => some (m.apply cmd).1
    | .error _ => none

def Machine.feed (gob : Gob) (m : Machine) : List ApplyMsg → Option Machine
  | [] => some m
  | msg :: ms => (msg.handle gob m).bind fun m' => m'.feed gob ms

theorem Machine.feed_append {gob : Gob} (m : Machine) (xs ys : List ApplyMsg) :
    m.feed gob (xs ++ ys) = (m.feed gob xs).bind fun m' => m'.feed gob ys := by
  induction xs generalizing m with
  | nil => rfl
  | cons x xs ih =>
    simp only [List.cons_append, feed, Option.bind_assoc]
    congr 1
    funext m'
    exact ih m'

def Applier.index : Applier → Option ℕ
  | .notifying i _ | .deciding i | .compacting i => some i
  | _ => none

/-- What a step does to the process of server `p`: it is a new one, its machine stays, or its
machine is given the next message. -/
inductive ServerMove (cfg : KvConfig) (s t : KvState) (p : ℕ) : Prop
  | fresh : t.kvs p = {} → (t.raft.servers p).sent = [] →
      (t.raft.servers p).epoch = (s.raft.servers p).epoch + 1 → ServerMove cfg s t p
  | keeps : (t.raft.servers p).epoch = (s.raft.servers p).epoch →
      (s.raft.servers p).sent <+: (t.raft.servers p).sent →
      (t.kvs p).machine = (s.kvs p).machine → (t.kvs p).taken = (s.kvs p).taken →
      (t.kvs p).applier.index = none ∨ (t.kvs p).applier.index = (s.kvs p).applier.index →
      ServerMove cfg s t p
  | given {msg : ApplyMsg} : t.raft = s.raft →
      (s.raft.servers p).sent[(s.kvs p).taken]? = some msg →
      msg.handle cfg.gob (s.kvs p).machine = some (t.kvs p).machine →
      (t.kvs p).taken = (s.kvs p).taken + 1 →
      (t.kvs p).applier.index = none ∨ (t.kvs p).applier.index = some msg.index →
      (∀ e, msg = .command e → ∃ o ∈ t.outcomes, o.entry = e) →
      ServerMove cfg s t p

/-- A process goes on sending; a restart begins a new one. -/
theorem step_sent_grows {cfg : Config} {s t : State} {x : Action} (h : step cfg s x = some t) :
    ∀ p, ((t.servers p).epoch = (s.servers p).epoch ∧ (s.servers p).sent <+: (t.servers p).sent) ∨
      x = .restart p ∧ (t.servers p).epoch = (s.servers p).epoch + 1 ∧ (t.servers p).sent = [] := by
  refine step_servers (I := fun p srv => (srv.epoch = (s.servers p).epoch ∧
      (s.servers p).sent <+: srv.sent) ∨ x = .restart p ∧
      srv.epoch = (s.servers p).epoch + 1 ∧ srv.sent = []) h
    (fun p => .inl ⟨rfl, List.prefix_refl _⟩) (fun p _ _ _ _ _ _ => .inl ⟨rfl, List.prefix_refl _⟩)
    (fun p _ _ _ _ _ _ _ _ => .inl ⟨rfl, List.prefix_refl _⟩) fun p srv hch => ?_
  cases hch with
  | applierTake _ _ _ => exact .inl ⟨rfl, List.prefix_refl _⟩
  | applierSend _ _ => exact .inl ⟨rfl, List.prefix_append _ _⟩
  | crash _ => exact .inl ⟨rfl, List.prefix_refl _⟩
  | restart _ _ => exact .inr ⟨rfl, rfl, rfl⟩
  | stop _ => exact .inl ⟨rfl, List.prefix_refl _⟩

theorem ServerMove.advance {P : Action → Prop} (h : Follows cfg s r.base P) :
    ServerMove cfg s (s.advance r) p := by
  have hkeep : (r.base.servers p).epoch = (s.raft.servers p).epoch →
      (s.advance r).kvs p = s.kvs p := fun he => if_pos he
  rcases h with heq | ⟨x, hx, -⟩
  · have hraft : (s.advance r).raft = s.raft := heq
    rw [← heq] at hkeep
    refine .keeps (by rw [hraft]) (by rw [hraft]) ?_ ?_ (.inr ?_) <;> rw [hkeep (by rw [heq])]
  · rcases step_sent_grows hx p with ⟨he, hsent⟩ | ⟨-, he, hsent⟩
    · refine .keeps he hsent ?_ ?_ (.inr ?_) <;> rw [hkeep he]
    · exact .fresh (if_neg (by omega)) hsent he

structure KvServer.Keeps (kv kv' : KvServer) : Prop where
  machine : kv'.machine = kv.machine
  taken : kv'.taken = kv.taken
  index : kv'.applier.index = none ∨ kv'.applier.index = kv.applier.index

theorem ServerMove.set {q : ℕ} {kv : KvServer} (hraft : t.raft = s.raft)
    (hkvs : t.kvs = Function.update s.kvs q kv) (hkv : (s.kvs q).Keeps kv) :
    ServerMove cfg s t p := by
  obtain ⟨hm, ht, happ⟩ := hkv
  refine .keeps (by rw [hraft]) (by rw [hraft]) ?_ ?_ ?_ <;> rw [hkvs] <;> by_cases hp : p = q
  · subst hp; simpa using hm
  · simp [hp]
  · subst hp; simpa using ht
  · simp [hp]
  · subst hp; simpa using happ
  · simp [hp]

/-- Process `q` makes a step of its node that is no restart, and changes in other fields. -/
theorem ServerMove.advance_set {q : ℕ} {kv : KvServer} {b : Action}
    (h : readStep cfg.raft s.reads (.cluster b) = some r) (hb : b ≠ .restart q)
    (hreads : t.reads = r) (hkvs : t.kvs = Function.update (s.advance r).kvs q kv)
    (hout : t.outcomes = s.outcomes) (hkv : (s.kvs q).Keeps kv) : ServerMove cfg s t p := by
  obtain ⟨hm, ht, happ⟩ := hkv
  have hraft : t.raft = r.base := congrArg ReadState.base hreads
  by_cases hp : p = q
  · subst hp
    have hgrows : (t.raft.servers p).epoch = (s.raft.servers p).epoch ∧
        (s.raft.servers p).sent <+: (t.raft.servers p).sent := by
      rw [hraft]
      rcases readStep_follows h (P := fun x => x = b) (fun x hx => (Option.some.inj hx).symm) with
        heq | ⟨x, hx, rfl⟩
      · rw [heq]
        exact ⟨rfl, List.prefix_refl _⟩
      · exact (step_sent_grows hx p).resolve_right fun hr => hb hr.1
    refine .keeps hgrows.1 hgrows.2 ?_ ?_ ?_ <;> rw [hkvs, Function.update_self]
    · exact hm
    · exact ht
    · exact happ
  · have hrest : t.kvs p = (s.advance r).kvs p := by rw [hkvs, Function.update_of_ne hp]
    have hmove : ServerMove cfg s (s.advance r) p :=
      .advance (readStep_follows h (P := fun _ => True) fun _ _ => trivial)
    cases hmove with
    | fresh h1 h2 h3 => exact .fresh (hrest.trans h1) (hraft ▸ h2) (hraft ▸ h3)
    | keeps h1 h2 h3 h4 h5 =>
      exact .keeps (hraft ▸ h1) (hraft ▸ h2) (hrest ▸ h3) (hrest ▸ h4) (hrest ▸ h5)
    | given h1 h2 h3 h4 h5 h6 =>
      exact .given (hraft.trans h1) h2 (hrest ▸ h3) (hrest ▸ h4) (hrest ▸ h5) (hout ▸ h6)

theorem KvServer.settle_same (kv : KvServer) (index : ℕ) (res : ApplyResult) :
    (kv.settle index res).machine = kv.machine ∧ (kv.settle index res).taken = kv.taken := by
  unfold KvServer.settle
  split <;> exact ⟨rfl, rfl⟩

theorem kvStep_server (h : kvStep cfg s a = some t) (p : ℕ) : ServerMove cfg s t p := by
  have hgiven : ∀ {q : ℕ} {kv : KvServer} {msg : ApplyMsg}, t.raft = s.raft →
      t.kvs = Function.update s.kvs q kv →
      (s.raft.servers q).sent[(s.kvs q).taken]? = some msg →
      msg.handle cfg.gob (s.kvs q).machine = some kv.machine → kv.taken = (s.kvs q).taken + 1 →
      kv.applier.index = none ∨ kv.applier.index = some msg.index →
      (∀ e, msg = .command e → ∃ o ∈ t.outcomes, o.entry = e) → ServerMove cfg s t p := by
    intro q kv msg hraft hkvs hmsg hh ht happ hout
    by_cases hp : p = q
    · subst hp
      refine .given hraft hmsg ?_ ?_ ?_ hout <;> rw [hkvs, Function.update_self]
      · exact hh
      · exact ht
      · exact happ
    · refine .keeps (by rw [hraft]) (by rw [hraft]) ?_ ?_ (.inr ?_) <;>
        rw [hkvs, Function.update_of_ne hp]
  cases kvStep_cases h with
  | reads _ hr => exact .advance (readStep_follows hr (P := fun _ => True) fun _ _ => trivial)
  | call _ _ => exact .keeps rfl (List.prefix_refl _) rfl rfl (.inr rfl)
  | enqueue _ _ => exact .set rfl rfl ⟨rfl, rfl, .inr rfl⟩
  | propose _ hr => exact .advance_set hr (by simp) rfl rfl rfl ⟨rfl, rfl, .inr rfl⟩
  | leave _ _ _ => exact .set rfl rfl ⟨rfl, rfl, .inr rfl⟩
  | wait _ _ => exact .set rfl rfl ⟨rfl, rfl, .inr rfl⟩
  | find _ _ _ _ => exact .set rfl rfl ⟨rfl, rfl, .inr rfl⟩
  | receive _ _ => exact .keeps rfl (List.prefix_refl _) rfl rfl (.inr rfl)
  | restore _ _ hmsg hm => exact hgiven rfl rfl hmsg hm rfl (.inl rfl) (by simp)
  | apply _ _ hmsg hd =>
    refine hgiven rfl rfl hmsg ?_ rfl (.inr rfl) fun e he => ?_
    · simp only [ApplyMsg.handle, hd]
    · exact ⟨_, List.mem_append_right _ (List.mem_singleton.mpr rfl), ApplyMsg.command.inj he⟩
  | panics hr => exact .advance (readStep_follows hr (P := fun _ => True) fun _ _ => trivial)
  | @notify q index _ res _ app hn happ _ happ' =>
    obtain ⟨h1, h2⟩ := (s.kvs q).settle_same index res
    refine .set rfl rfl ⟨h1, h2, ?_⟩
    rcases happ' with rfl | rfl
    · exact .inl rfl
    · exact .inr (by rw [happ]; rfl)
  | @go _ q app happ =>
    refine .set rfl rfl ⟨rfl, rfl, ?_⟩
    rcases happ with rfl | rfl | ⟨i, hi, rfl⟩
    · exact .inl rfl
    · exact .inl rfl
    · exact .inr (by rw [hi]; rfl)
  | compact _ _ _ hr => exact .advance_set hr (by simp) rfl rfl rfl ⟨rfl, rfl, .inl rfl⟩

def KvState.given (s : KvState) (p : ℕ) : List ApplyMsg :=
  (s.raft.servers p).sent.take (s.kvs p).taken

/-- Each machine is what the messages it was given make of an empty one. -/
structure Fed (cfg : KvConfig) (s : KvState) : Prop where
  taken : ∀ p, (s.kvs p).taken ≤ (s.raft.servers p).sent.length
  machine : ∀ p, newMachine.feed cfg.gob (s.given p) = some (s.kvs p).machine

theorem fed_init (cfg : KvConfig) : Fed cfg cfg.init := ⟨fun _ => Nat.zero_le _, fun _ => rfl⟩

theorem Fed.step (h : Fed cfg s) (hs : kvStep cfg s a = some t) : Fed cfg t := by
  have key : ∀ p, (t.kvs p).taken ≤ (t.raft.servers p).sent.length ∧
      newMachine.feed cfg.gob (t.given p) = some (t.kvs p).machine := by
    intro p
    cases kvStep_server hs p with
    | fresh hkv hsent _ =>
      rw [KvState.given, hkv, hsent]
      exact ⟨le_rfl, rfl⟩
    | keeps _ hsent hm ht _ =>
      obtain ⟨rest, hrest⟩ := hsent
      have htaken := h.taken p
      rw [KvState.given, hm, ht, ← hrest, List.take_append_of_le_length htaken]
      exact ⟨by simp; omega, h.machine p⟩
    | given hraft hmsg hh ht _ _ =>
      have hlt := (List.getElem?_eq_some_iff.mp hmsg).1
      rw [KvState.given, hraft, ht, List.take_add_one, hmsg]
      refine ⟨by omega, ?_⟩
      have := h.machine p
      rw [KvState.given] at this
      rw [Machine.feed_append, this]
      simp [Machine.feed, hh]
  exact ⟨fun p => (key p).1, fun p => (key p).2⟩

end KMC
