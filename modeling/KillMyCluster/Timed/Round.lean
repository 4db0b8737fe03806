import KillMyCluster.Read.Fresh
import KillMyCluster.Timed.Bound

/-! Rounds of heartbeats on the clock. What a round of `confirmLeadership` has gathered is backed by
heartbeats that were sent after it began, one per peer, and accepted by the peers they count for. -/

namespace KMC

open Trace

variable {cfg : Config} {tm : Timings} {p q : ℕ} {n : Node} {r : Rpc} {u : ReadState}

/-! ## Answers stay -/

/-- An RPC stays, with its answers. -/
theorem step_resps {s t : State} {b : Action} {k : ℕ} (h : step cfg s b = some t)
    (hr : s.rpcs[k]? = some r) :
    ∃ r', t.rpcs[k]? = some r' ∧ r.Same r' ∧ ∀ resp ∈ r.resps, resp ∈ r'.resps := by
  obtain ⟨r', hr', hsame⟩ := step_rpcs h k r hr
  refine ⟨r', hr', hsame, fun resp hm => ?_⟩
  rcases step_cases h with ⟨q, io, m, e, hn, hsec⟩ | ⟨q, srv, -, rfl⟩
  · cases hsec.origin hn hr' with
    | old r₀ hr₀ _ hres =>
      obtain rfl := Option.mem_unique hr hr₀
      exact hres ▸ hm
    | answered r₀ _ _ hr₀ _ _ _ _ hres =>
      obtain rfl := Option.mem_unique hr hr₀
      exact hres ▸ List.mem_append_left _ hm
    | sent _ _ hle _ _ _ =>
      have := (List.getElem?_eq_some_iff.mp hr).1
      omega
  · obtain rfl := Option.mem_unique hr hr'
    exact hm

variable {s t : TimedState} {a : TimedAction}

theorem timedStep_sentAt {k : ℕ} (h : timedStep cfg tm s a = some t)
    (hk : k < s.base.rpcs.length) : t.history.sentAt k = s.history.sentAt k := by
  cases timedStep_cases h with
  | pass | rest => rfl
  | _ => exact if_pos hk

theorem timedStep_rpc {k : ℕ} (h : timedStep cfg tm s a = some t) (hr : s.base.rpcs[k]? = some r) :
    ∃ r', t.base.rpcs[k]? = some r' ∧ r.Same r' ∧ (∀ resp ∈ r.resps, resp ∈ r'.resps) ∧
      t.history.sentAt k = s.history.sentAt k := by
  have hsent := timedStep_sentAt h (List.getElem?_eq_some_iff.mp hr).1
  rcases timedStep_base h with heq | ⟨b, -, hb⟩
  · exact ⟨r, heq ▸ hr, .refl r, fun _ => id, hsent⟩
  · obtain ⟨r', h1, h2, h3⟩ := step_resps hb hr
    exact ⟨r', h1, h2, h3, hsent⟩

structure Past (s : TimedState) : Prop where
  sent : ∀ k, s.history.sentAt k ≤ s.now
  round : ∀ p, s.history.roundAt p ≤ s.now

theorem Past.step (h : Past s) (hs : timedStep cfg tm s a = some t) : Past t := by
  have hadv : ∀ (x : ReadAction) (u : ReadState) (clocks : ℕ → Clocks),
      Past (s.advance x u clocks) := by
    intro x u clocks
    refine ⟨fun k => ?_, fun p => ?_⟩
    · change (if k < s.base.rpcs.length then s.history.sentAt k else s.now) ≤ s.now
      split_ifs
      · exact h.sent k
      · exact le_rfl
    · cases x with
      | confirm q =>
        change Function.update s.history.roundAt q s.now p ≤ s.now
        by_cases hp : p = q
        · rw [hp, Function.update_self]
        · rw [Function.update_of_ne hp]
          exact h.round p
      | _ => exact h.round p
  cases timedStep_cases hs with
  | pass => exact ⟨fun k => (h.sent k).trans (timedStep_now hs),
      fun p => (h.round p).trans (timedStep_now hs)⟩
  | rest => exact ⟨h.sent, h.round⟩
  | _ => exact hadv ..

/-! ## Where a round stands -/

inductive Polling (cfg : Config) (s : ReadState) (p term i acks : ℕ) (beats : List ℕ) :
    ReadAction → ReadState → Prop
  | kept {x : ReadAction} {u : ReadState} : (s.readers p).phase = .polling term i acks beats →
      x ≠ .confirm p → Polling cfg s p term i acks beats x u
  | begun {u : ReadState} : acks = 1 → beats = [] → Polling cfg s p term i acks beats (.confirm p) u
  | beat {q : ℕ} {old : List ℕ} {n : Node} {u : ReadState} :
      (s.readers p).phase = .polling term i acks old → s.base.node p = some n →
      n.currentTerm = term → (∀ k ∈ old, ∀ r ∈ s.base.rpcs[k]?, r.dst ≠ q) →
      step cfg s.base (.heartbeat p q) = some u.base → beats = old ++ [s.base.rpcs.length] →
      Polling cfg s p term i acks beats (.beat p q) u
  | ack {k j old : ℕ} {io : Io} {n : Node} {r : Rpc} {resp : Response} {u : ReadState} :
      (s.readers p).phase = .polling term i old beats → k ∈ beats → s.base.rpcs[k]? = some r →
      r.resps[j]? = some resp → step cfg s.base (.respond k j io) = some u.base →
      acks = countAck n term old resp → Polling cfg s p term i acks beats (.ack p k j io) u

/-- A heartbeat of a round is sent in the term of the round. -/
theorem readStep_beat {s : ReadState} {term i acks : ℕ} {beats : List ℕ}
    (h : readStep cfg s (.beat p q) = some u)
    (hph : (s.readers p).phase = .polling term i acks beats) :
    ∃ n, s.base.node p = some n ∧ n.currentTerm = term := by
  simp only [readStep, hph, Option.bind_eq_bind, Option.bind_eq_some_iff] at h
  obtain ⟨n, hn, h⟩ := h
  split at h
  · rename_i hg
    exact ⟨n, hn, (Node.leads_iff.mp hg.1).2.2⟩
  · cases h

theorem readStep_polling {s : ReadState} {x : ReadAction} {term i acks : ℕ} {beats : List ℕ}
    (h : readStep cfg s x = some u) (hph : (u.readers p).phase = .polling term i acks beats) :
    Polling cfg s p term i acks beats x u := by
  -- the reader of `p` is untouched, or its process is new
  have hadv : ∀ (v : State), ((s.advance v).readers p).phase = .polling term i acks beats →
      (s.readers p).phase = .polling term i acks beats := by
    intro v hv
    exact ReadState.advance_cases (P := fun b => b.phase = .polling term i acks beats →
      (s.readers p).phase = .polling term i acks beats) (by simp) id hv
  have hset : ∀ (w : ReadState) (q : ℕ) (b : Reader),
      ((w.setReader q b).readers p).phase = .polling term i acks beats →
      q = p ∧ b.phase = .polling term i acks beats ∨
        q ≠ p ∧ (w.readers p).phase = .polling term i acks beats := by
    intro w q b hw
    by_cases hq : p = q
    · subst hq
      exact .inl ⟨rfl, by simpa [ReadState.setReader] using hw⟩
    · exact .inr ⟨fun hh => hq hh.symm, by simpa [ReadState.setReader, hq] using hw⟩
  by_cases hconf : ∃ q, x = .confirm q
  · obtain ⟨q, rfl⟩ := hconf
    simp only [readStep, Option.bind_eq_bind, Option.bind_eq_some_iff] at h
    obtain ⟨m, hm, h⟩ := h
    split at h
    · split at h <;> obtain rfl := Option.some.inj h <;>
        rcases hset _ _ _ hph with ⟨rfl, hb⟩ | ⟨hne, hold⟩
      · cases hb
        exact .begun rfl rfl
      · exact .kept hold (by simpa using hne)
      · cases hb
      · exact .kept hold (by simpa using hne)
    · cases h
  have hne : x ≠ .confirm p := fun hx => hconf ⟨p, hx⟩
  cases readStep_cases h with
  | cluster _ => exact .kept (hadv _ hph) hne
  | call _ =>
    rcases hset _ _ _ hph with ⟨rfl, hb⟩ | ⟨-, hold⟩
    · refine .kept ?_ hne
      unfold Node.readIndex at hb
      split at hb <;> exact hb
    · exact .kept hold hne
  | collect hphase =>
    rcases hset _ _ _ hph with ⟨rfl, hb⟩ | ⟨-, hold⟩
    · rcases hphase with ⟨_, rfl⟩ | ⟨_, _, rfl⟩ <;> cases hb
    · exact .kept hold hne
  | confirm _ => exact absurd ⟨_, rfl⟩ hconf
  | beat hphase hnew hv =>
    rcases hset _ _ _ hph with ⟨rfl, hb⟩ | ⟨-, hold⟩
    · cases hb
      obtain ⟨m, hm, hterm⟩ := readStep_beat h hphase
      exact .beat hphase hm hterm hnew hv rfl
    · exact .kept (hadv _ hold) hne
  | ack hphase hk hr hresp hv =>
    rcases hset _ _ _ hph with ⟨rfl, hb⟩ | ⟨-, hold⟩
    · cases hb
      exact .ack hphase hk hr hresp hv rfl
    · exact .kept (hadv _ hold) hne
  | confirmed _ _ _ _ _ _ | deposed _ =>
    rcases hset _ _ _ hph with ⟨rfl, hb⟩ | ⟨-, hold⟩
    · cases hb
    · exact .kept (hadv _ hold) hne
  | fail _ _ _ | applied _ =>
    rcases hset _ _ _ hph with ⟨rfl, hb⟩ | ⟨-, hold⟩
    · cases hb
    · exact .kept hold hne
  | appliedLeased =>
    rcases hset _ _ _ hph with ⟨rfl, hb⟩ | ⟨-, hold⟩
    · exact .kept hb hne
    · exact .kept hold hne

/-! ## What backs a round -/

/-- The heartbeats of a round were sent after it began, in its term, and those that count were
accepted. -/
def BeatRound (cfg : Config) (s : TimedState) (p term acks : ℕ) (beats : List ℕ) : Prop :=
  Beats (fun k r => r.dst ∈ cfg.peers p ∧ (∃ req, r.body = .heartbeat req ∧ req.term = term) ∧
      s.history.roundAt p ≤ s.history.sentAt k)
    (fun r => ∃ resp, .append resp ∈ r.resps ∧ resp.success = true) s.base.rpcs acks beats

def Rounds (cfg : Config) (s : TimedState) : Prop :=
  ∀ p term i acks beats, (s.reads.readers p).phase = .polling term i acks beats →
    BeatRound cfg s p term acks beats

theorem beats_kept (term : ℕ) (hs : timedStep cfg tm s a = some t)
    (hround : t.history.roundAt p = s.history.roundAt p) (k : ℕ) (r : Rpc)
    (hr : s.base.rpcs[k]? = some r) : ∃ r', t.base.rpcs[k]? = some r' ∧ r.Same r' ∧
      (r.dst ∈ cfg.peers p ∧ (∃ req, r.body = .heartbeat req ∧ req.term = term) ∧
        s.history.roundAt p ≤ s.history.sentAt k →
      r'.dst ∈ cfg.peers p ∧ (∃ req, r'.body = .heartbeat req ∧ req.term = term) ∧
        t.history.roundAt p ≤ t.history.sentAt k) ∧
      ((∃ resp, .append resp ∈ r.resps ∧ resp.success = true) →
        ∃ resp, .append resp ∈ r'.resps ∧ resp.success = true) := by
  obtain ⟨r', hr', hsame, hresps, hsent⟩ := timedStep_rpc hs hr
  refine ⟨r', hr', hsame, ?_, fun hacc => ?_⟩
  · rw [hsame.dst, hsame.body, hround, hsent]
    exact id
  · obtain ⟨resp, hm, hok⟩ := hacc
    exact ⟨resp, hresps _ hm, hok⟩

theorem Rounds.advance {x : ReadAction} {clocks : ℕ → Clocks} (h : Rounds cfg s) (hpast : Past s)
    (hs : timedStep cfg tm s a = some (s.advance x u clocks))
    (hu : readStep cfg s.reads x = some u) : Rounds cfg (s.advance x u clocks) := by
  have hround : ∀ {q}, x ≠ .confirm q →
      (s.advance x u clocks).history.roundAt q = s.history.roundAt q := by
    intro q hne
    cases x with
    | confirm q' => exact Function.update_of_ne (fun hq => hne (by rw [hq])) _ _
    | _ => rfl
  intro p term i acks beats hph
  cases readStep_polling hu hph with
  | kept hold hne => exact (h p term i acks beats hold).mono (beats_kept _ hs (hround hne))
  | begun h1 h2 =>
    subst h1 h2
    exact Beats.nil
  | @beat q old n _ hold hn hterm hnew hstep hbeats =>
    subst hbeats
    obtain ⟨hq, m, hm, r, req, hrpc, rfl, hb, hreq⟩ := step_heartbeat hstep
    obtain rfl := Option.mem_unique hn hm
    refine (h p term i acks old hold).beat (beats_kept _ hs (hround (by simp))) hrpc
      ⟨hq, ⟨req, hb, hreq.trans hterm⟩, ?_⟩ hnew
    refine (hround (q := p) (by simp)).le.trans ((hpast.round p).trans ?_)
    exact (if_neg (lt_irrefl _)).ge
  | @ack k j old io n r resp _ hold hk hrk hresp hstep hacks =>
    subst hacks
    have hr := h p term i old beats hold
    have hkeep := beats_kept (p := p) term hs (hround (by simp))
    have hmono := hr.mono hkeep
    unfold countAck
    split
    · rename_i ar
      split
      · rename_i hack
        obtain ⟨hun, r', hr', hh⟩ := step_respond hstep hrk
        obtain ⟨r₁, h1, -, hresps, -⟩ := timedStep_rpc hs hrk
        obtain rfl := Option.mem_unique hr' h1
        simp only [Node.acknowledges, Bool.and_eq_true] at hack
        exact hr.ack hkeep hk hrk hun hr' hh ⟨ar, hresps _ (List.mem_of_getElem? hresp), hack.1.2⟩
      · exact hmono
    · exact hmono

theorem Rounds.step (h : Rounds cfg s) (hpast : Past s) (hs : timedStep cfg tm s a = some t) :
    Rounds cfg t := by
  have hs' := hs
  cases timedStep_cases hs with
  | pass | rest =>
    exact fun p term i acks beats hph => (h p term i acks beats hph).mono (beats_kept _ hs rfl)
  | stepDown _ _ _ hu | poll _ _ _ hu | reader _ _ hu | cluster _ _ _ hu _ =>
    exact h.advance hpast hs' hu

end KMC
