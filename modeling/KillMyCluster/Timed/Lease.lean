import KillMyCluster.Timed.Round

/-! The read lease keeps other leaders away. While a leader's lease runs, a majority that has
accepted its heartbeats is bound to it, so no later term has been won; and what it has committed in
its own term covers everything that was ever committed. -/

namespace KMC

open Trace

variable {cfg : Config} {tm : Timings} {b b' : Ballots} {p q l : ℕ} {n : Node} {body : Body}
  {io : Io}

/-! ## Leaders' messages -/

/-- A leader's message comes from the winner of its term. -/
def Letters (cfg : Config) (b : Ballots) (s : State) : Prop :=
  ∀ (k : ℕ) (r : Rpc) (T l : ℕ), s.rpcs[k]? = some r → r.body.leader = some (T, l) →
    l ≠ 0 ∧ Won b cfg T l

theorem Letters.signed {s : State} (h : Letters cfg b s) : s.Signed :=
  fun k r T l hr hb => (h k r T l hr hb).1

theorem Node.startElection_sends {fail : Call → Bool}
    (h : (q, body) ∈ (n.startElectionLocked fail).sends) : body.leader = none := by
  unfold Node.startElectionLocked at h
  simp only at h
  split_ifs at h
  · cases h
  · cases h
  · obtain ⟨q', -, heq⟩ := List.mem_map.mp h
    obtain ⟨-, rfl⟩ := Prod.mk.inj heq
    rfl

theorem Node.startPreVote_sends {fail : Call → Bool}
    (h : (q, body) ∈ (n.startPreVoteLocked fail).sends) : body.leader = none := by
  unfold Node.startPreVoteLocked at h
  simp only at h
  split_ifs at h
  · exact startElection_sends h
  · obtain ⟨q', -, heq⟩ := List.mem_map.mp h
    obtain ⟨-, rfl⟩ := Prod.mk.inj heq
    rfl

theorem receive_sends {peer : ℕ} {body' : Body} {resp : Response} {e : Effect}
    (h : receive io n peer body resp = some e) (hm : (q, body') ∈ e.sends) :
    body'.leader = none := by
  cases receive_cases h with
  | stands => exact Node.startElection_sends hm
  | _ => cases hm

/-- Only a leader sends such messages, in its own name and term. -/
theorem Section.letters {s t : State} {a : Action} {e : Effect} {T : ℕ}
    (h : Section cfg s n a p io e t) (hm : (q, body) ∈ e.sends) (hb : body.leader = some (T, l)) :
    n.role = .leader ∧ T = n.currentTerm ∧ l = n.id := by
  cases h with
  | tick he =>
    obtain ⟨-, rfl⟩ := Node.timeout_some he
    cases (Node.startPreVote_sends hm).symm.trans hb
  | stepDown he =>
    obtain ⟨-, rfl⟩ := Node.resign_some he
    cases hm
  | deliver hr =>
    rw [handle_sends] at hm
    cases hm
  | respond _ _ _ _ he => cases (receive_sends he hm).symm.trans hb
  | propose =>
    rw [Node.commitPropBatch_sends] at hm
    cases hm
  | replicate _ he =>
    obtain ⟨-, hl, rfl | ⟨snap, -, -, rfl⟩ | ⟨-, rfl⟩⟩ := Node.replicateOnce_cases he
    · cases hm
    · obtain ⟨-, rfl⟩ := Prod.mk.inj (List.mem_singleton.mp hm)
      obtain ⟨rfl, rfl⟩ := Prod.mk.inj (Option.some.inj hb)
      exact ⟨hl, rfl, rfl⟩
    · obtain ⟨-, rfl⟩ := Prod.mk.inj (List.mem_singleton.mp hm)
      obtain ⟨rfl, rfl⟩ := Prod.mk.inj (Option.some.inj hb)
      exact ⟨hl, rfl, rfl⟩
  | heartbeat _ he =>
    obtain ⟨-, hl, -, rfl⟩ := Node.heartbeatAck_cases he
    obtain ⟨-, rfl⟩ := Prod.mk.inj (List.mem_singleton.mp hm)
    obtain ⟨rfl, rfl⟩ := Prod.mk.inj (Option.some.inj hb)
    exact ⟨hl, rfl, rfl⟩
  | lease => cases hm
  | snapshot =>
    rw [Node.snapshot_sends] at hm
    cases hm

theorem Letters.step {s t : State} {a : Action} (h : Letters cfg b s) (hE : Elect cfg b s)
    (hle : b.Le b') (hs : step cfg s a = some t) : Letters cfg b' t := by
  intro k r T l hr hb
  rcases step_rpc hs hr with ⟨r₀, h0, hsame⟩ | ⟨p, io, n, e, q, body, hn, hsec, -, hm, rfl⟩
  · obtain ⟨h1, h2⟩ := h k r₀ T l h0 (hsame.body ▸ hb)
    exact ⟨h1, h2.mono hle⟩
  · obtain ⟨hl, rfl, rfl⟩ := hsec.letters hm hb
    obtain ⟨hmem, hid, -, -⟩ := hE.proc p n hn
    rw [hid]
    exact ⟨Config.ne_noVote hmem, (hE.lead p n hn hl).mono hle⟩

/-! ## Acknowledgements -/

variable {s t : TimedState} {a : TimedAction} {v T : ℕ} {σ : ℤ}

/-- Node `v` has accepted a heartbeat of term `T` that was sent at `σ` or later. -/
def Acked (s : TimedState) (v T : ℕ) (σ : ℤ) : Prop :=
  ∃ (k : ℕ) (r : Rpc) (req : AppendEntriesRequest) (resp : AppendEntriesResponse),
    s.base.rpcs[k]? = some r ∧ r.dst = v ∧ r.body = .heartbeat req ∧ req.term = T ∧
    .append resp ∈ r.resps ∧ resp.success = true ∧ σ ≤ s.history.sentAt k

theorem Acked.mono (h : Acked s v T σ) (hs : timedStep cfg tm s a = some t) : Acked t v T σ := by
  obtain ⟨k, r, req, resp, hr, hd, hb, hT, hm, hok, hle⟩ := h
  obtain ⟨r', hr', hsame, hresps, hsent⟩ := timedStep_rpc hs hr
  exact ⟨k, r', req, resp, hr', hsame.dst.trans hd, hsame.body.trans hb, hT, hresps _ hm, hok,
    hsent ▸ hle⟩

/-- Who acknowledges a heartbeat is bound by it from then on. -/
theorem Acked.fresh {k draw : ℕ} {recent : Bool} {r : Rpc} {req : AppendEntriesRequest}
    {resp : AppendEntriesResponse} {x : ReadAction} {u : ReadState} {clocks : ℕ → Clocks}
    (hE : Elect cfg b u.base) (hsane : tm.Sane) (hpast : Past s) (hl : req.leaderId ≠ 0)
    (hx : x.act = some (.deliver k recent io)) (hr : s.base.rpcs[k]? = some r)
    (hn : s.node r.dst = some n)
    (halive : u.base.node r.dst = some (handle io recent n r.body).1.node)
    (hb : r.body = .heartbeat req) (hresp : (handle io recent n r.body).2 = .append resp)
    (hok : resp.success = true) (hσ : σ ≤ s.history.sentAt k)
    (hclocks : s.clocksAfter tm draw (.deliver k recent io) = some clocks) :
    Bound tm (s.advance x u clocks) r.dst req.term (σ + tm.electionTimeoutMin.toInt) := by
  have hbl : r.body.leader = some (req.term, req.leaderId) := by rw [hb]; rfl
  have hnow : σ ≤ s.now := hσ.trans (hpast.sent k)
  simp only [TimedState.clocksAfter, hr, hn, Option.bind_eq_bind, Option.bind_some,
    Option.bind_eq_some_iff] at hclocks
  obtain ⟨c, hc, hcl⟩ := hclocks
  obtain rfl := Option.some.inj hcl
  have hself : (s.advance x u (Function.update s.clocks r.dst c)).clocks r.dst = c :=
    Function.update_self ..
  rcases handle_leader io recent n hbl with ⟨hcon, hge, hf⟩ | ⟨hno, -⟩
  · have hs := ((Body.contacts_iff hbl).mp hcon).1
    have hears := s.hears_deliver hx hr hn
    rw [if_pos hcon] at hears
    rw [hb] at hc
    obtain ⟨hreset, htimeout⟩ := Clocks.hearLeader_timer hsane hs hge hc
    refine ⟨by simp only [TimedState.advance]; omega, ?_, fun hnone => ?_, fun m hm => ?_⟩
    · have hhard := (hE.proc r.dst _ halive).2.2.2
      exact (congrArg Prod.fst hhard).symm.trans hf.term
    · cases halive.symm.trans hnone
    · obtain rfl := Option.mem_unique halive hm
      refine ⟨hf.role, hf.leader ▸ hl, ⟨s.now, by simp [TimedState.advance, hears], by omega⟩, ?_,
        hself.symm ▸ htimeout⟩
      rw [hself, hreset]
      omega
  · -- a message that is ignored is not acknowledged
    have hign := (Body.not_contacts_iff hbl).mp hno
    rw [hb] at hresp
    simp only [handle, Response.append.injEq] at hresp
    rw [← hresp, (Node.handleAppendEntries_ignores hign).2] at hok
    cases hok

/-- An acknowledgement was there before, or its sender is bound by it. -/
theorem Acked.back (h : Acked t v T σ) (hs : timedStep cfg tm s a = some t)
    (hE : Elect cfg b t.base) (hsane : tm.Sane) (hpast : Past s) (hsig : s.base.Signed) :
    Acked s v T σ ∨ Bound tm t v T (σ + tm.electionTimeoutMin.toInt) := by
  obtain ⟨k, r', req, resp, hr', rfl, hb, rfl, hm, hok, hle⟩ := h
  have hold : ∀ r, s.base.rpcs[k]? = some r → r.Same r' → .append resp ∈ r.resps →
      Acked s r'.dst req.term σ := by
    intro r hr hsame hmem
    have hsent := timedStep_sentAt hs (List.getElem?_eq_some_iff.mp hr).1
    exact ⟨k, r, req, resp, hr, hsame.dst.symm, hsame.body ▸ hb, rfl, hmem, hok, hsent ▸ hle⟩
  rcases timedStep_base hs with heq | ⟨c, hc, hstep⟩
  · exact .inl (hold r' (heq ▸ hr') (.refl r') hm)
  rcases step_cases hstep with ⟨q, io, n, e, hn, hsec⟩ | ⟨q, srv, -, hset⟩
  swap
  · rw [hset] at hr'
    exact .inl (hold r' hr' (.refl r') hm)
  cases hsec.origin hn hr' with
  | old r hr hsame hres => exact .inl (hold r hr hsame (hres ▸ hm))
  | sent _ _ _ _ _ h => simp [h] at hm
  | answered r recent n' hr hsame ha halive hn' hres =>
    rw [hres] at hm
    rcases List.mem_append.mp hm with hm | hm
    · exact .inl (hold r hr hsame hm)
    subst ha
    obtain ⟨rfl, rfl⟩ : q = r.dst ∧ e = (handle io recent n r.body).1 := by
      generalize t.base = ub at hsec
      cases hsec with
      | deliver hr₁ =>
        obtain rfl := Option.mem_unique hr hr₁
        exact ⟨rfl, rfl⟩
    obtain rfl := Option.mem_unique hn' hn
    have hnode : t.base.node r.dst = some (handle io recent n' r.body).1.node := by
      rcases hsec.server with ⟨-, hsrv⟩ | ⟨_, _, hcrash, -⟩
      · rw [State.node, hsrv]
      · cases halive.symm.trans hcrash
    have hbody : r.body = .heartbeat req := hsame.body ▸ hb
    have hresp := (List.mem_singleton.mp hm).symm
    have hl := hsig k r req.term req.leaderId hr (by rw [hbody]; rfl)
    have hσ := timedStep_sentAt hs (List.getElem?_eq_some_iff.mp hr).1 ▸ hle
    cases timedStep_cases hs with
    | pass => exact hc.elim
    | rest | stepDown | poll => rcases hc with hc | hc <;> cases hc
    | reader _ hx _ => cases hx.symm.trans hc
    | cluster _ hx _ _ hclocks =>
      obtain rfl := Option.mem_unique hx hc
      rw [hsame.dst]
      exact .inr (Acked.fresh hE hsane hpast hl hx hr hn hnode hbody hresp hok hσ hclocks)

/-! ## The invariant -/

/-- A later term was won without the votes of those who have acknowledged heartbeats of term
`T` sent since `σ`. -/
def Rival (cfg : Config) (b : Ballots) (s : TimedState) (T : ℕ) (σ : ℤ) : Prop :=
  ∃ (T' l : ℕ) (W : Finset ℕ), T < T' ∧ W ⊆ cfg.ids.toFinset ∧ cfg.ids.length / 2 + 1 ≤ W.card ∧
    ∀ w ∈ W, b T' w = some l ∧ ¬ Acked s w T σ

/-- A lease until `U` in term `T` rests on the acknowledgements of a majority. -/
def Backs (cfg : Config) (tm : Timings) (s : TimedState) (p T : ℕ) (U : ℤ) : Prop :=
  ∃ (σ : ℤ) (V : Finset ℕ), U ≤ σ + tm.electionTimeoutMin.toInt ∧
    (∀ v ∈ V, v ∈ cfg.peers p ∧ Acked s v T σ) ∧ cfg.ids.length / 2 + 1 ≤ V.card + 1

structure Leased (cfg : Config) (tm : Timings) (b : Ballots) (s : TimedState) : Prop where
  elect : Elect cfg b s.base
  past : Past s
  letters : Letters cfg b s.base
  rounds : Rounds cfg s
  bound : ∀ v T σ, Acked s v T σ → s.now < σ + tm.electionTimeoutMin.toInt →
    Bound tm s v T (σ + tm.electionTimeoutMin.toInt) ∨ Rival cfg b s T σ
  lease : ∀ p n U, s.node p = some n → n.role = .leader →
    (s.clocks p).readLeaseUntil = some U → Backs cfg tm s p n.currentTerm U

/-- Who has voted in a later term is there. -/
theorem Elect.term_of_vote {s : State} (hE : Elect cfg b s) (h : b T v = some l) :
    T ≤ (s.hard v).1 := by
  by_contra hlt
  cases ((hE.booked v).later T (not_le.mp hlt)).symm.trans h

theorem Rival.step (h : Rival cfg b s T σ) (hle : b.Le b') (hs : timedStep cfg tm s a = some t)
    (hE : Elect cfg b' t.base) (hsane : tm.Sane) (hpast : Past s) (hsig : s.base.Signed) :
    Rival cfg b' t T σ := by
  obtain ⟨T', l, W, hT, hW, hcard, hw⟩ := h
  refine ⟨T', l, W, hT, hW, hcard, fun w hm => ⟨hle _ _ _ (hw w hm).1, fun hack => ?_⟩⟩
  rcases hack.back hs hE hsane hpast hsig with hold | hbound
  · exact (hw w hm).2 hold
  · have := hE.term_of_vote (hle _ _ _ (hw w hm).1)
    rw [hbound.term] at this
    omega

/-- A leader of a later term has won it without those who are bound. -/
theorem Leased.rival (h : Leased cfg tm b s) (hover : s.base.Overruled T)
    (hnow : s.now < σ + tm.electionTimeoutMin.toInt) : Rival cfg b s T σ := by
  by_contra hno
  obtain ⟨k, r, T', l, hr, hb, hT⟩ := hover
  obtain ⟨-, W, hW, hcard, hw⟩ := h.letters k r T' l hr hb
  refine hno ⟨T', l, W, hT, hW, hcard, fun w hm => ⟨hw w hm, fun hack => ?_⟩⟩
  have hbound := (h.bound w T σ hack hnow).resolve_right hno
  have := h.elect.term_of_vote (hw w hm)
  rw [hbound.term] at this
  omega

theorem Backs.mono {U : ℤ} (h : Backs cfg tm s p T U) (hs : timedStep cfg tm s a = some t) :
    Backs cfg tm t p T U := by
  obtain ⟨σ, V, hU, hv, hcard⟩ := h
  exact ⟨σ, V, hU, fun v hm => ⟨(hv v hm).1, (hv v hm).2.mono hs⟩, hcard⟩

/-- A confirmed round. -/
theorem BeatRound.backs {term acks : ℕ} {beats : List ℕ} {U : ℤ}
    (h : BeatRound cfg s p term acks beats) (hmaj : cfg.ids.length / 2 + 1 ≤ acks)
    (hU : U ≤ s.history.roundAt p + tm.electionTimeoutMin.toInt) : Backs cfg tm s p term U := by
  obtain ⟨V, hV, hv⟩ := h.acks
  refine ⟨s.history.roundAt p, V, hU, fun v hm => ?_, hmaj.trans hV⟩
  obtain ⟨k, hk, r, hr, hd, -, resp, hresp, hok⟩ := hv v hm
  obtain ⟨r', hr', hpeer, ⟨req, hb, hterm⟩, hle⟩ := h.sent k hk
  obtain rfl := Option.mem_unique hr hr'
  exact ⟨hd ▸ hpeer, k, r, req, resp, hr, hd, hb, hterm, hresp, hok, hle⟩

theorem Leased.renewed {draw : ℕ} (h : Leased cfg tm b s)
    (ha : Timely tm s (.read (.confirmed p) draw)) (hn : s.node p = some n)
    (hl : n.role = .leader) {u : ReadState} (hu : readStep cfg s.reads (.confirmed p) = some u) :
    Backs cfg tm s p n.currentTerm (s.now + tm.electionTimeoutMin.toInt / 3) := by
  obtain ⟨-, m, term, i, acks, beats, hm, hph, hmaj⟩ := readStep_lease hu rfl
  obtain rfl := Option.mem_unique hn hm
  obtain ⟨hterm, hU⟩ := ha.lease
  simp only [ReadAction.OnTerm, hm, hph] at hterm
  rw [hterm hl]
  rw [h.elect.majority hn] at hmaj
  exact (h.rounds p term i acks beats hph).backs hmaj hU

theorem TimedAction.renews_eq (h : a.renews p = true) :
    ∃ draw, a = .read (.confirmed p) draw := by
  unfold TimedAction.renews at h
  split at h
  · exact ⟨_, by rw [beq_iff_eq.mp h]⟩
  · cases h

theorem Leased.step (h : Leased cfg tm b s) (hsane : tm.Sane) (ha : Timely tm s a)
    (hs : timedStep cfg tm s a = some t) : ∃ b', b.Le b' ∧ Leased cfg tm b' t := by
  obtain ⟨b', hle, hE⟩ : ∃ b', b.Le b' ∧ Elect cfg b' t.base := by
    rcases timedStep_base hs with heq | ⟨c, hc, hstep⟩
    · exact ⟨b, fun _ _ _ => id, heq ▸ h.elect⟩
    · obtain ⟨hle, hE⟩ := h.elect.step (ha.disk c hc) hstep
      exact ⟨_, hle, hE⟩
  have hsig := h.letters.signed
  refine ⟨b', hle, hE, h.past.step hs, ?_, h.rounds.step h.past hs, fun v T σ hack hnow => ?_,
    fun p n U hn hl hU => ?_⟩
  · rcases timedStep_base hs with heq | ⟨c, -, hstep⟩
    · rw [heq]
      exact fun k r T l hr hb => (h.letters k r T l hr hb).imp_right (·.mono hle)
    · exact h.letters.step h.elect hle hstep
  · rcases hack.back hs hE hsane h.past hsig with hold | hbound
    swap
    · exact .inl hbound
    have hnow' := (timedStep_now hs).trans_lt hnow
    rcases h.bound v T σ hold hnow' with hbound | hrival
    · refine (hbound.step h.elect hsane hsig ha hnow' hs).imp_right fun hover => ?_
      exact (h.rival hover hnow').step hle hs hE hsane h.past hsig
    · exact .inr (hrival.step hle hs hE hsane h.past hsig)
  · cases timedStep_tenure hs hn hl with
    | elected _ hseed => cases hseed.lease.symm.trans hU
    | kept hn' hl' hterm _ _ _ hlease =>
      rw [hterm]
      rcases hlease with hsame | ⟨hren, hval⟩
      · exact (h.lease p _ U hn' hl' (hsame ▸ hU)).mono hs
      · obtain rfl := Option.mem_unique hval hU
        obtain ⟨draw, rfl⟩ := TimedAction.renews_eq hren
        cases timedStep_cases hs with
        | reader _ hx _ => cases hx
        | cluster _ _ _ hu _ => exact (h.renewed ha hn' hl' hu).mono hs

theorem leased_init (cfg : Config) (tm : Timings) :
    Leased cfg tm (fun _ _ => none) cfg.timedInit where
  elect := elect_init cfg
  past := ⟨fun _ => le_rfl, fun _ => le_rfl⟩
  letters k r T l hr _ := by simp [TimedState.base, Config.timedInit, Config.init] at hr
  rounds p term i acks beats hph := by simp [Config.timedInit] at hph
  bound v T σ hack _ := by
    obtain ⟨k, r, -, -, hr, -⟩ := hack
    simp [TimedState.base, Config.timedInit, Config.init] at hr
  lease p n U hn _ _ := by cases hn

/-- Along a run the votes only grow in number. -/
theorem Leased.reaches (h : Leased cfg tm b s) (hsane : tm.Sane)
    (hst : Reaches (timedStep cfg tm) (Timely tm) s t) : ∃ b', b.Le b' ∧ Leased cfg tm b' t := by
  refine hst.invariant (I := fun t => ∃ b', b.Le b' ∧ Leased cfg tm b' t) ?_
    ⟨b, fun _ _ _ => id, h⟩
  rintro s a t ⟨b', hle, hb⟩ ha hs
  obtain ⟨b'', hle', hb'⟩ := hb.step hsane ha hs
  exact ⟨b'', fun T u c hc => hle' T u c (hle T u c hc), hb'⟩

/-! ## The results -/

/-- While the lease runs no later term has been won. -/
theorem Leased.won_le {T' : ℕ} (h : Leased cfg tm b s) (hn : s.node p = some n)
    (hl : n.role = .leader) (hlease : (s.clocks p).leased s.now = true) (hwon : Won b cfg T' l) :
    T' ≤ n.currentTerm := by
  obtain ⟨U, hU, hlt⟩ : ∃ U, (s.clocks p).readLeaseUntil = some U ∧ s.now < U := by
    simpa only [Clocks.leased, Option.any_eq_true, decide_eq_true_eq] using hlease
  obtain ⟨σ, V, hle, hV, hcard⟩ := h.lease p n U hn hl hU
  obtain ⟨hmem, -, -, hhard⟩ := h.elect.proc p n hn
  have hterm : (s.base.hard p).1 = n.currentTerm := (congrArg Prod.fst hhard).symm
  have hpV : p ∉ V := fun hp => (Config.mem_peers.mp (hV p hp).1).2 rfl
  have hsub : insert p V ⊆ cfg.ids.toFinset := by
    refine Finset.insert_subset (List.mem_toFinset.mpr hmem) fun v hv => ?_
    exact List.mem_toFinset.mpr (Config.mem_peers.mp (hV v hv).1).1
  have hids : cfg.ids.toFinset.card = cfg.ids.length := List.toFinset_card_of_nodup cfg.nodup
  have hins : (insert p V).card = V.card + 1 := Finset.card_insert_of_notMem hpV
  -- any other majority meets the leader and its followers
  have hmeet : ∀ W : Finset ℕ, W ⊆ cfg.ids.toFinset → cfg.ids.length / 2 + 1 ≤ W.card →
      ∃ w ∈ W, w = p ∨ w ∈ V := by
    intro W hW hcW
    obtain ⟨w, hw⟩ := Finset.inter_nonempty_of_card_lt_card_add_card hW hsub (by omega)
    obtain ⟨h1, h2⟩ := Finset.mem_inter.mp hw
    exact ⟨w, h1, Finset.mem_insert.mp h2⟩
  by_contra hlater
  rw [not_le] at hlater
  have hno : ¬ Rival cfg b s n.currentTerm σ := by
    rintro ⟨T₁, l₁, W, hT, hW, hcW, hw⟩
    obtain ⟨w, hm, rfl | hv⟩ := hmeet W hW hcW
    · have := h.elect.term_of_vote (hw w hm).1
      omega
    · exact (hw w hm).2 (hV w hv).2
  obtain ⟨W, hW, hcW, hw⟩ := hwon
  obtain ⟨w, hm, hpv⟩ := hmeet W hW hcW
  have hvote := h.elect.term_of_vote (hw w hm)
  rcases hpv with rfl | hv
  · omega
  · have hbound := (h.bound w n.currentTerm σ (hV w hv).2 (by omega)).resolve_right hno
    rw [hbound.term] at hvote
    omega

def TimedAction.Reliable (a : TimedAction) : Prop := ∀ b, a.Includes b → b.Reliable

def Timings.steady : Timings :=
  { electionTimeoutMin := 6, electionTimeoutMax := 12, commitStallTimeout := 100 }

theorem Timings.sane_steady : Timings.steady.Sane := ⟨by decide, by decide, by decide⟩

def firstTerm : List TimedAction :=
  timed [.restart 1, .restart 2, .restart 3] ++ [.pass 12, .timer 1 {} 0] ++
    timed [.deliver 0 false {}, .respond 0 0 {}, .deliver 2 false {}, .respond 2 0 {},
      .propose 1 [[7]] {}, .replicate 1 2, .deliver 4 true {}, .respond 4 0 {}]

def secondTerm : List TimedAction :=
  [.pass 12, .timer 2 {} 0] ++
    timed [.deliver 6 false {}, .respond 6 0 {}, .deliver 8 false {}, .respond 8 0 {},
      .propose 2 [[8]] {}, .replicate 2 3, .deliver 9 true {}, .respond 9 0 {}, .replicate 2 3,
      .deliver 10 true {}, .respond 10 0 {}] ++
    [ReadAction.call 2 false, .collect 2 0 false, .confirm 2, .beat 2 3,
      .cluster (.deliver 11 true {}), .ack 2 11 0 {}, .confirmed 2].map fun x => .read x 0

theorem reliable_terms : ∀ a ∈ firstTerm ++ secondTerm, a.Reliable := by
  simp [firstTerm, secondTerm, timed, TimedAction.Reliable, TimedAction.Includes, ReadAction.act,
    Action.Reliable, Action.io]

/-- Node 2 polls while its leader, node 1, is silent. The answer comes only after it has heard from
the leader again, and acknowledged a heartbeat that the leader takes for a lease. -/
def overlap : List TimedAction :=
  timed [.restart 1, .restart 2, .restart 3] ++ [.pass 12, .timer 1 {} 0] ++
    timed [.deliver 0 false {}, .respond 0 0 {}, .deliver 2 false {}, .respond 2 0 {}] ++
    [.pass 12, .timer 2 {} 0] ++ timed [.deliver 5 false {}] ++
    [ReadAction.call 1 false, .collect 1 0 false, .confirm 1, .beat 1 2,
      .cluster (.deliver 6 true {}), .ack 1 6 0 {}, .confirmed 1].map (fun x => .read x 0) ++
    timed [.respond 5 0 {}, .deliver 8 false {}, .respond 8 0 {}]

-- the lease of term 1 runs while node 2 leads term 2
example : ((exec (timedStep .trio .steady) Config.trio.timedInit overlap).map fun s =>
    ((s.clocks 1).leased s.now, (s.node 1).map fun n => (n.role, n.currentTerm),
      (s.node 2).map fun n => (n.role, n.currentTerm))) =
    some (true, some (.leader, 1), some (.leader, 2)) := by decide

/-! ## Reads under a lease -/

theorem Since.timed {K : Setting} {x : State} {g : Ghost}
    (hK : ∀ s a, a.Reliable → K.Allowed s a) (h : Since K x g s.base)
    (hst : Reaches (timedStep K.cfg tm) (fun _ a => a.Reliable) s t) : Since K x g t.base := by
  refine hst.invariant (I := fun s => Since K x g s.base) (fun s a t ih ha hs => ?_) h
  rcases timedStep_base hs with heq | ⟨c, hc, hstep⟩
  · exact heq ▸ ih
  · exact ih.step hK (ha c hc) hstep

def afterFirst : TimedState :=
  (exec (timedStep .trio .steady) Config.trio.timedInit firstTerm).get rfl

end KMC
