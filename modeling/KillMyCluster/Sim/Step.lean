import KillMyCluster.Sim.Leader

/-! Every step of the cluster keeps the relation, and so does every run. -/

namespace KMC

open LeaderLog

variable {K : Setting} {g g' : Ghost} {s t : State} {p k : ℕ} {n : Node} {io : Io}

/-! ## Replacing one server -/

theorem State.floor_update (s : State) (p : ℕ) (srv : Server) (rpcs : List Rpc) :
    (⟨Function.update s.servers p srv, rpcs⟩ : State).floor =
      Function.update s.floor p srv.floor := by
  funext q
  by_cases hq : q = p
  · subst hq; simp [State.floor]
  · simp [State.floor, hq]

theorem State.floor_le_update {x : ℕ} (h : s.floor p ≤ x) (q : ℕ) :
    s.floor q ≤ Function.update s.floor p x q := by
  by_cases hq : q = p
  · subst hq; simpa using h
  · simp [hq]

structure Setting.Next (K : Setting) (g' : Ghost) (s t : State) : Prop where
  rel : K.Rel g' t
  floor : ∀ q, s.floor q ≤ t.floor q

theorem Setting.Rel.update (hR : K.Rel g s) (ha : K.cfg.Acts p g g') {srv : Server}
    {rpcs : List Rpc}
    (hup : ∀ n, srv.proc = some n → K.Up g' s.floor p n srv.disk (srv.sent ++ srv.batch))
    (hdown : srv.proc = none → K.Down g' p srv.disk) (hfl : s.floor p ≤ srv.floor)
    (hrpc : ∀ (k : ℕ) (r : Rpc), rpcs[k]? = some r →
      K.RpcOK g' (Function.update s.floor p srv.floor) r) :
    K.Next g' s ⟨Function.update s.servers p srv, rpcs⟩ := by
  obtain ⟨hi', hgr⟩ := hR.inv.steps ha
  have hfloor := State.floor_le_update hfl
  refine ⟨⟨hi', ?_, ?_, ?_⟩, by rw [State.floor_update]; exact hfloor⟩
  · intro q n hn
    rw [State.floor_update]
    by_cases hq : q = p
    · subst hq
      simp only [State.node, Function.update_self] at hn ⊢
      exact (hup n hn).frame hi' (SameAt.refl _ _) (Grows.refl _) fun u _ => hfloor u
    · simp only [State.node, Function.update_of_ne hq] at hn ⊢
      exact (hR.up q n hn).frame hR.inv (Steps.sameAt hq ha) hgr fun u _ => hfloor u
  · intro q hn
    by_cases hq : q = p
    · subst hq
      simp only [State.node, Function.update_self] at hn ⊢
      exact hdown hn
    · simp only [State.node, Function.update_of_ne hq] at hn ⊢
      exact (hR.down q hn).frame hR.inv (Steps.sameAt hq ha) hgr
  · intro k r hr
    rw [State.floor_update]
    exact hrpc k r hr

/-- A step of `p` that sends nothing. -/
theorem Setting.Rel.setServer (hR : K.Rel g s) (ha : K.cfg.Acts p g g') {srv : Server}
    (hup : ∀ n, srv.proc = some n → K.Up g' s.floor p n srv.disk (srv.sent ++ srv.batch))
    (hdown : srv.proc = none → K.Down g' p srv.disk) (hfl : s.floor p ≤ srv.floor) :
    K.Next g' s (s.setServer p srv) := by
  obtain ⟨hi', hgr⟩ := hR.inv.steps ha
  exact hR.update ha hup hdown hfl fun k r hr =>
    (hR.rpc k r hr).mono hR.inv hgr (State.floor_le_update hfl)

/-! ## Finishing a critical section -/

theorem Io.fail_reliable (h : io.fault = fun _ => none) : io.fail = noFail := by
  funext c
  simp [Io.fail, h, noFail]

theorem Io.apply_reliable (h : io.fault = fun _ => none) : io.apply = Disk.run := by
  funext d c
  simp [Io.apply, h]

theorem State.finish_alive (h : io.fault = fun _ => none) (hc : io.crash = none) (e : Effect) :
    s.finish p io e =
      ⟨Function.update s.servers p { s.servers p with
        proc := some e.node, disk := (s.servers p).disk.runs e.calls },
      s.rpcs ++ rpcsOf p (s.servers p).epoch e.sends⟩ := by
  simp only [State.finish, hc, Io.apply_reliable h]
  rfl

theorem State.finish_dead (h : io.fault = fun _ => none) {r : ℕ} (hc : io.crash = some (k, r))
    (e : Effect) : s.finish p io e =
      s.setServer p ((s.servers p).die ((s.servers p).disk.crashed e.calls k r)) := by
  simp only [State.finish, hc, Io.apply_reliable h]
  rfl

theorem Setting.Rel.finish (hR : K.Rel g s) (hn : s.node p = some n)
    (hio : io.fault = fun _ => none) {e : Effect} {φ : Ghost → Prop}
    (hL : K.Lands g s.floor p n.log.firstIndex (s.servers p).disk
      ((s.servers p).sent ++ (s.servers p).batch) e φ) :
    ∃ g', K.cfg.Acts p g g' ∧ K.Next g' s (s.finish p io e) ∧ (io.crash = none → φ g' ∧
      (s.finish p io e).floor = Function.update s.floor p e.node.log.firstIndex) := by
  have hup := hR.up p n hn
  have hfloor : s.floor p = n.log.firstIndex := by
    have : (s.servers p).proc = some n := hn
    simp [State.floor, Server.floor, this]
  obtain ⟨⟨g₁, hs, hu, hsend, hφ⟩, hmono, hcrash⟩ := hL
  cases hc : io.crash with
  | none =>
    obtain ⟨hi₁, hgr⟩ := hR.inv.steps hs
    rw [State.finish_alive hio hc]
    refine ⟨g₁, hs, hR.update hs (fun m hm => ?_) (by simp) ?_ (fun k r hr => ?_),
      fun _ => ⟨hφ, by rw [State.floor_update]; rfl⟩⟩
    · obtain rfl := Option.some.inj hm
      exact hu
    · rw [hfloor]
      exact hmono
    · rcases getElem_append_rpcs hr with hr | ⟨-, q, body, hq, rfl⟩
      · exact (hR.rpc k r hr).mono hR.inv hgr (State.floor_le_update (hfloor ▸ hmono))
      · obtain ⟨hqp, hb⟩ := hsend q body (List.mem_of_getElem? hq)
        rw [Config.mem_peers] at hqp
        exact ⟨hup.mem, hqp.1, hqp.2.symm, hb, by simp⟩
  | some kr =>
    obtain ⟨k, r⟩ := kr
    rw [State.finish_dead hio hc]
    obtain ⟨g₂, hs₂, hd, hlo⟩ := hcrash k r
    refine ⟨g₂, hs₂, hR.setServer hs₂ (by simp [Server.die]) (fun _ => hd) ?_, by simp⟩
    rw [hfloor]
    exact hlo

/-! ## Answers -/

theorem Setting.Rel.modify (hR : K.Rel g s) {f : Rpc → Rpc}
    (hok : ∀ r, s.rpcs[k]? = some r → K.RpcOK g s.floor (f r)) :
    K.Rel g { s with rpcs := s.rpcs.modify k f } := by
  refine ⟨hR.inv, hR.up, hR.down, fun j r' hr' => ?_⟩
  obtain ⟨r, hr, rfl⟩ := getElem_modify_rpcs hr'
  split
  · rename_i hkj
    exact hok r (hkj ▸ hr)
  · exact hR.rpc j r hr

theorem Setting.Rel.answer (hR : K.Rel g s) {resp : Response}
    (hok : ∀ r, s.rpcs[k]? = some r → io.crash = none →
      K.AnswerOK g s.floor r.src r.dst r.body resp) : K.Rel g (s.answer k io resp) := by
  unfold State.answer
  split
  · rename_i hc
    refine hR.modify fun r hr => ?_
    refine { hR.rpc k r hr with resps := fun resp' hm => ?_ }
    rcases List.mem_append.mp hm with hm | hm
    · exact (hR.rpc k r hr).resps resp' hm
    · rw [List.mem_singleton.mp hm]
      exact hok r hr hc
  · exact hR

theorem Setting.Rel.markHandled (hR : K.Rel g s) (k : ℕ) : K.Rel g (s.markHandled k) :=
  hR.modify fun r hr => { hR.rpc k r hr with }

/-! ## Deliveries -/

/-- If the request is a snapshot that the destination is about to install, the snapshot agrees
with the log it replaces. -/
def Rpc.Matching (s : State) (r : Rpc) : Prop :=
  match r.body, s.node r.dst with
  | .snapshot req, some n => n.stopped = false → n.currentTerm ≤ req.term →
      n.commitIndex < req.lastIncludedIndex → n.Agrees req
  | _, _ => True

def Action.Matching (s : State) : Action → Prop
  | .deliver k _ _ => ∀ r ∈ s.rpcs[k]?, r.Matching s
  | _ => True

theorem Setting.Rel.floor_eq (hn : s.node p = some n) : s.floor p = n.log.firstIndex := by
  have : (s.servers p).proc = some n := hn
  simp [State.floor, Server.floor, this]

theorem Setting.Rel.handle (hR : K.Rel g s) {r : Rpc} (hr : s.rpcs[k]? = some r)
    (hn : s.node r.dst = some n) (hio : io.fault = fun _ => none) (recent : Bool)
    (hm : K.fresh → Action.Matching s (.deliver k recent io)) :
    K.Lands g s.floor r.dst n.log.firstIndex (s.servers r.dst).disk
      ((s.servers r.dst).sent ++ (s.servers r.dst).batch) (handle io recent n r.body).1 fun g' =>
      K.AnswerOK g' (Function.update s.floor r.dst
        (handle io recent n r.body).1.node.log.firstIndex) r.src r.dst r.body
        (handle io recent n r.body).2 := by
  have hup := hR.up r.dst n hn
  have hok := hR.rpc k r hr
  have hbody := hok.body
  have happend : ∀ {req : AppendEntriesRequest}, AppendOK g r.src req →
      K.Lands g s.floor r.dst n.log.firstIndex (s.servers r.dst).disk
        ((s.servers r.dst).sent ++ (s.servers r.dst).batch) (n.handleAppendEntries noFail req).1
        fun g' => K.AppendAnswerOK g' (Function.update s.floor r.dst
          (n.handleAppendEntries noFail req).1.node.log.firstIndex) r.dst req
          (n.handleAppendEntries noFail req).2 := by
    intro req hreq
    have hmono := (hup.handleAppendEntries hR.inv le_rfl hreq hok.ne (Rel.floor_eq hn).ge).mono
    exact hup.handleAppendEntries hR.inv le_rfl hreq hok.ne (by simpa using hmono)
  cases hb : r.body with
  | preVote t round req =>
    rw [hb] at hbody
    simp only [KMC.handle, Io.fail_reliable hio]
    exact (hup.handleRequestVote hR.inv le_rfl hok.src_mem recent (Or.inl hbody)).imp
      fun _ _ => trivial
  | vote req =>
    rw [hb] at hbody
    simp only [KMC.handle, Io.fail_reliable hio]
    exact (hup.handleRequestVote hR.inv le_rfl hok.src_mem recent (Or.inr hbody)).imp
      fun _ hφ => hφ hbody.1
  | replicate req =>
    rw [hb] at hbody
    simp only [KMC.handle, Io.fail_reliable hio]
    exact happend hbody
  | heartbeat req =>
    rw [hb] at hbody
    simp only [KMC.handle, Io.fail_reliable hio]
    exact happend hbody
  | snapshot req =>
    rw [hb] at hbody
    simp only [KMC.handle, Io.fail_reliable hio]
    have hagree : K.fresh → n.stopped = false → n.currentTerm ≤ req.term →
        n.commitIndex < req.lastIncludedIndex → n.Agrees req := fun hfr => by
      have := hm hfr r hr
      rwa [Rpc.Matching, hb, hn] at this
    refine (hup.handleInstallSnapshot hR.inv le_rfl hbody hok.ne hagree).imp
      fun _ hφ hns hle => ?_
    rw [Function.update_self]
    exact hφ hns hle

theorem Setting.Rel.deliver (hR : K.Rel g s) {r : Rpc} (hr : s.rpcs[k]? = some r)
    (hn : s.node r.dst = some n) (hio : io.fault = fun _ => none) (recent : Bool)
    (hm : K.fresh → Action.Matching s (.deliver k recent io)) : ∃ g', K.cfg.Acts r.dst g g' ∧
      K.Next g' s ((s.finish r.dst io (KMC.handle io recent n r.body).1).answer k io
        (KMC.handle io recent n r.body).2) := by
  have hup := hR.up r.dst n hn
  obtain ⟨g₁, ha, ⟨hrel, hfl⟩, hφ⟩ := hR.finish hn hio (hR.handle hr hn hio recent hm)
  refine ⟨g₁, ha, hrel.answer fun r' hr' hc => ?_, fun q => (hfl q).trans ?_⟩
  swap
  · unfold State.answer
    split <;> exact le_rfl
  obtain ⟨h1, h2⟩ := hφ hc
  -- the request itself is not changed by the handler
  have hrr : r' = r := by
    rw [State.finish_alive hio hc] at hr'
    have hk := (List.getElem?_eq_some_iff.mp hr).1
    rw [List.getElem?_append_left hk, hr] at hr'
    exact (Option.some.inj hr').symm
  rw [hrr, h2]
  exact h1

end KMC
