import KillMyCluster.Durable.Recorded

/-! Where entries come from. An entry in a log, in a log file or on its way to another node was made
of a proposed command; whatever is true of those is true of it. -/

namespace KMC

open Trace

variable {Q : LogEntry → Prop} {l l' : RaftLog} {n : Node} {e : Effect} {io : Io} {c : Call}
  {cs : List Call} {i : ℕ} {x : LogEntry} {es : List LogEntry}

def Call.Carries (Q : LogEntry → Prop) (c : Call) : Prop := ∀ x, .entry x ∈ c.records → Q x

def Body.Carries (Q : LogEntry → Prop) : Body → Prop
  | .replicate req | .heartbeat req => ∀ x ∈ req.entries, Q x
  | _ => True

structure Effect.Carries (Q : LogEntry → Prop) (e : Effect) : Prop where
  log : ∀ x ∈ e.node.log.reals, Q x
  calls : ∀ c ∈ e.calls, c.Carries Q
  sends : ∀ q body, (q, body) ∈ e.sends → body.Carries Q

structure Entered (Q : LogEntry → Prop) (s : State) : Prop where
  up : ∀ p n, s.node p = some n → ∀ x ∈ n.log.reals, Q x
  disk : ∀ p x, .entry x ∈ (s.servers p).disk.wal → Q x
  rpc : ∀ (k : ℕ) (r : Rpc), s.rpcs[k]? = some r → r.body.Carries Q

theorem entered_init (cfg : Config) : Entered Q cfg.init :=
  ⟨by simp [Config.init, State.node], by simp [Config.init], by simp [Config.init]⟩

def Action.Makes (Q : LogEntry → Prop) : Action → Prop
  | .propose _ batch _ => ∀ data ∈ batch, ∀ index term, Q ⟨index, term, data⟩
  | _ => True

def Action.MakesAt (Q : LogEntry → Prop) (n : Node) : Action → Prop
  | .propose _ batch _ => n.role = .leader →
      ∀ x ∈ Node.newEntries n.currentTerm n.log.lastIndex batch, Q x
  | _ => True

theorem Entered.imp {Q' : LogEntry → Prop} {s : State} (hQ : ∀ x, Q x → Q' x)
    (h : Entered Q s) : Entered Q' s where
  up p n hn x hx := hQ x (h.up p n hn x hx)
  disk p x hx := hQ x (h.disk p x hx)
  rpc k r hr := by
    have := h.rpc k r hr
    cases hb : r.body <;> rw [hb] at this <;> first | trivial | exact fun x hx => hQ x (this x hx)

/-! ## One section -/

theorem RaftLog.mem_above (h : x ∈ l.above i) : x ∈ l.reals :=
  List.mem_of_mem_drop h

theorem Call.Logs.carries (h : c.Logs l l') (hl : ∀ x ∈ l.reals, Q x)
    (hc : ∀ es, c = .appendEntries es → ∀ x ∈ es, Q x) :
    (∀ x ∈ l'.reals, Q x) ∧ c.Carries Q := by
  cases c with
  | saveHardState t v =>
    obtain rfl : l' = l := h
    exact ⟨hl, by simp [Carries, records]⟩
  | appendEntries es =>
    obtain ⟨-, rfl⟩ := h
    refine ⟨fun x hx => (List.mem_append.mp hx).elim (hl x) (hc es rfl x), fun x hx => ?_⟩
    exact hc es rfl x (by simpa [records] using hx)
  | truncateFrom i =>
    obtain ⟨-, rfl⟩ := h
    exact ⟨fun x hx => hl x (List.mem_of_mem_take hx), by simp [Carries, records]⟩
  | saveSnapshot snap t v keep =>
    obtain ⟨rfl, -, -, -, hreals⟩ := h
    have hl' : ∀ x ∈ l'.reals, Q x := fun x hx => hl x (RaftLog.mem_above (hreals ▸ hx))
    exact ⟨hl', fun x hx => hl' x (by simpa [records, RaftLog.allEntries] using hx)⟩

theorem Shadow.carries (h : Shadow l cs l') (hl : ∀ x ∈ l.reals, Q x)
    (hcs : ∀ es, .appendEntries es ∈ cs → ∀ x ∈ es, Q x) :
    (∀ x ∈ l'.reals, Q x) ∧ ∀ c ∈ cs, c.Carries Q := by
  induction h with
  | nil => exact ⟨hl, by simp⟩
  | @cons l m l' c cs hc _ ih =>
    obtain ⟨hm, hcall⟩ := hc.carries hl fun es he => hcs es (he ▸ List.mem_cons_self)
    obtain ⟨h1, h2⟩ := ih hm fun es he => hcs es (List.mem_cons_of_mem c he)
    exact ⟨h1, fun x hx => (List.mem_cons.mp hx).elim (fun he => he ▸ hcall) (h2 x)⟩

theorem Node.mergeLoop_subset (l : RaftLog) (es : List LogEntry) :
    ∀ x ∈ (mergeLoop l es).2, x ∈ es := by
  induction es with
  | nil => simp [mergeLoop]
  | cons y es ih =>
    unfold mergeLoop
    have hrest : ∀ x ∈ (mergeLoop l es).2, x ∈ y :: es := fun x hx =>
      List.mem_cons_of_mem y (ih x hx)
    split
    · exact hrest
    split
    · exact fun x hx => hx
    split
    · exact fun x hx => hx
    · exact hrest

theorem Node.appendNew_appends {fail : Call → Bool} {req : AppendEntriesRequest}
    {new : List LogEntry} (h : .appendEntries es ∈ (n.appendNew fail req new).1.calls) :
    es = new := by
  unfold Node.appendNew at h
  split at h
  · cases h
  simp only at h
  split at h <;> simpa using h

theorem Node.mergeEntries_appends {fail : Call → Bool} {req : AppendEntriesRequest}
    (h : .appendEntries es ∈ (n.mergeEntries fail req).1.calls) : ∀ x ∈ es, x ∈ req.entries := by
  have hsub := Node.mergeLoop_subset n.log req.entries
  unfold Node.mergeEntries at h
  generalize mergeLoop n.log req.entries = res at hsub h
  obtain ⟨cut, new⟩ := res
  cases cut with
  | none => exact appendNew_appends h ▸ hsub
  | some i =>
    simp only at h
    split at h
    · simp at h
    · simp only [Effect.after_calls, List.cons_append, List.nil_append, List.mem_cons, reduceCtorEq,
        false_or] at h
      exact appendNew_appends h ▸ hsub

theorem Node.newEntries_data (term : ℕ) (batch : List Bytes) (last : ℕ) :
    ∀ x ∈ newEntries term last batch, x.data ∈ batch := by
  induction batch generalizing last with
  | nil => simp [newEntries]
  | cons data batch ih =>
    intro x hx
    rcases List.mem_cons.mp hx with rfl | hx
    · exact List.mem_cons_self
    · exact List.mem_cons_of_mem data (ih (last + 1) x hx)

theorem Saves.appends (h : Saves cs) : .appendEntries es ∉ cs := by
  intro hm
  obtain ⟨t, v, hc⟩ := h _ hm
  cases hc

/-- What is appended came with a request or was proposed. -/
theorem Moves.appends {s : State} {file : Option Snapshot} {a : Action} (h : Moves s file n a io e)
    (hrpc : ∀ (k : ℕ) (r : Rpc), s.rpcs[k]? = some r → r.body.Carries Q) (ha : a.MakesAt Q n)
    (hes : .appendEntries es ∈ e.calls) : ∀ x ∈ es, Q x := by
  cases h with
  | stays hq => exact absurd hes hq.saves.appends
  | ship _ => cases hes
  | commit _ _ => cases hes
  | @merge k recent io r req m hs hr hb _ _ _ hsaves _ =>
    have hreq : ∀ x ∈ req.entries, Q x := by
      have := hrpc k r hr
      rcases hb with hb | hb <;> rw [hb] at this <;> exact this
    rcases List.mem_append.mp hes with hes | hes
    · exact absurd hes hsaves.appends
    · exact fun x hx => hreq x (Node.mergeEntries_appends hes x hx)
  | install _ _ _ _ hsaves _ =>
    rcases List.mem_append.mp hes with hes | hes
    · exact absurd hes hsaves.appends
    · unfold Node.installLocked at hes
      split at hes
      · cases hes
      simp only at hes
      split at hes <;> simp at hes
  | @propose p batch io hl =>
    unfold Node.commitPropBatch at hes
    split at hes
    · cases hes
    have hes' : es = Node.newEntries n.currentTerm n.log.lastIndex batch := by
      simp only at hes
      split at hes <;> simpa using hes
    exact hes' ▸ ha hl
  | snapshot =>
    unfold Node.snapshot at hes
    split at hes
    · cases hes
    split at hes
    · cases hes
    split at hes
    · cases hes
    simp only at hes
    split at hes <;> simp at hes

theorem RaftLog.mem_suffix (hi : l.firstIndex < i) (h : x ∈ l.suffix i) : x ∈ l.reals := by
  unfold RaftLog.suffix at h
  split at h
  · cases h
  · obtain ⟨k, hk⟩ : ∃ k, i - l.firstIndex = k + 1 := ⟨i - l.firstIndex - 1, by omega⟩
    rw [hk, RaftLog.entries, List.drop_succ_cons] at h
    exact List.mem_of_mem_drop h

theorem Body.From.carries {body : Body} (h : body.From n) (hn : ∀ x ∈ n.log.reals, Q x) :
    body.Carries Q := by
  cases body with
  | preVote | vote | snapshot => trivial
  | replicate req | heartbeat req =>
    obtain ⟨next, k, hnext, rfl⟩ := h
    exact fun x hx => hn x (RaftLog.mem_suffix hnext (List.mem_of_mem_take hx))

theorem Moves.carries {s : State} {file : Option Snapshot} {a : Action} (h : Moves s file n a io e)
    (hlog : e.Logged n) (hn : ∀ x ∈ n.log.reals, Q x)
    (hrpc : ∀ (k : ℕ) (r : Rpc), s.rpcs[k]? = some r → r.body.Carries Q) (ha : a.MakesAt Q n) :
    e.Carries Q := by
  obtain ⟨h1, h2⟩ := hlog.shadow.carries hn fun es hes => h.appends hrpc ha hes
  refine ⟨h1, h2, fun q body hb => ?_⟩
  rcases h.sends q body hb with hf | ⟨-, rfl⟩
  · exact hf.carries hn
  · trivial

/-! ## On the disk -/

theorem Disk.mem_foldl {d : Disk} (hcs : ∀ c ∈ cs, c.Carries Q) (hd : ∀ x, .entry x ∈ d.wal → Q x)
    (h : .entry x ∈ (cs.foldl io.apply d).wal) : Q x := by
  induction cs generalizing d with
  | nil => exact hd x h
  | cons c cs ih =>
    refine ih (fun c' hc' => hcs c' (List.mem_cons_of_mem c hc')) (fun y hy => ?_) h
    obtain ⟨k, hk⟩ := io.apply_eq_write d c
    rcases Disk.mem_write (hk ▸ hy) with hy | hy
    · exact hd y hy
    · exact hcs c List.mem_cons_self y hy

theorem PersistedState.mem_replay {rs : List Rec} {st : PersistedState}
    (h : x ∈ (rs.foldl PersistedState.replay st).entries) : x ∈ st.entries ∨ .entry x ∈ rs := by
  induction rs generalizing st with
  | nil => exact .inl h
  | cons r rs ih =>
    rcases ih h with h | h
    · cases r with
      | hardState t v => exact .inl h
      | entry y =>
        rcases List.mem_append.mp h with h | h
        · exact .inl h
        · obtain rfl := List.mem_singleton.mp h
          exact .inr List.mem_cons_self
      | truncate i =>
        have hsub := List.dropWhile_sublist (l := st.entries.reverse) fun e => decide (i ≤ e.index)
        exact .inl (List.mem_reverse.mp (hsub.mem (List.mem_reverse.mp h)))
    · exact .inr (List.mem_cons_of_mem r h)

theorem openPersister_mem {d : Disk} (h : x ∈ (openPersister d).entries) : .entry x ∈ d.wal := by
  have hr : x ∈ d.replayed.entries := by
    unfold openPersister at h
    simp only at h
    split at h
    · exact (List.dropWhile_sublist _).mem h
    · exact h
  rcases PersistedState.mem_replay hr with h | h
  · cases h
  · exact h

/-! ## All steps -/

variable {cfg : Config} {s t : State} {a : Action} {p : ℕ}

theorem Action.Makes.at (h : a.Makes Q) (n : Node) : a.MakesAt Q n := by
  cases a with
  | propose p batch io =>
    exact fun _ x hx => h x.data (Node.newEntries_data _ batch _ x hx) x.index x.term
  | _ => trivial

theorem Entered.section_at (h : Entered Q s) (hrec : Recorded s) (hn : s.node p = some n)
    (hs : Section cfg s n a p io e t) (ha : a.Sure) (hm : a.MakesAt Q n) : e.Carries Q :=
  hs.moves.carries (hs.moves.logged (hrec.up p n hn).1 ha hrec.rpc) (h.up p n hn) h.rpc hm

theorem Entered.section (h : Entered Q s) (hrec : Recorded s) (hn : s.node p = some n)
    (hs : Section cfg s n a p io e t) (ha : a.Sure) (hm : a.Makes Q) : e.Carries Q :=
  h.section_at hrec hn hs ha (hm.at n)

theorem Entered.change {srv : Server} (h : Entered Q s) (hch : Change cfg s a p srv) {m : Node}
    (hm : srv.proc = some m) : ∀ x ∈ m.log.reals, Q x := by
  cases hch with
  | @applierTake _ n _ _ hn htake _ =>
    obtain rfl := Option.some.inj hm
    have hlog := h.up p n hn
    obtain ⟨_, -, rfl, -⟩ | ⟨-, rfl, -⟩ := Node.applierTake_cases htake <;> exact hlog
  | applierSend hn _ =>
    obtain rfl := Option.some.inj hm
    exact h.up p _ hn
  | crash _ => cases hm
  | restart _ _ =>
    obtain rfl := Option.some.inj hm
    exact fun x hx => h.disk p x (openPersister_mem hx)
  | @stop _ n hn =>
    obtain rfl := Option.some.inj hm
    exact (h.up p n hn :)

theorem Entered.step_at (h : Entered Q s) (hrec : Recorded s) (ha : a.Sure)
    (hs : step cfg s a = some t) (hm : ∀ p io n e, s.node p = some n →
      Section cfg s n a p io e t → a.MakesAt Q n) : Entered Q t where
  up := step_servers (I := fun _ srv => ∀ m, srv.proc = some m → ∀ x ∈ m.log.reals, Q x) hs h.up
    (fun p io n e hn hsec _ m hm' => by
      obtain rfl := Option.some.inj hm'
      exact (h.section_at hrec hn hsec ha (hm _ _ _ _ hn hsec)).log)
    (fun _ _ _ _ _ _ _ _ _ m hm' => by cases hm')
    fun p srv hch m hm' => h.change hch hm'
  disk := step_servers (I := fun _ srv => ∀ x, .entry x ∈ srv.disk.wal → Q x) hs h.disk
    (fun p io n e hn hsec _ x hx =>
      Disk.mem_foldl (h.section_at hrec hn hsec ha (hm _ _ _ _ hn hsec)).calls (h.disk p) hx)
    (fun p io n e k r hn hsec _ x hx => by
      have hcalls := (h.section_at hrec hn hsec ha (hm _ _ _ _ hn hsec)).calls
      have hpre : ∀ c ∈ e.calls.take k, c.Carries Q := fun c hc =>
        hcalls c (List.mem_of_mem_take hc)
      cases hhead : (e.calls.drop k).head? with
      | none =>
        rw [hhead] at hx
        exact Disk.mem_foldl hpre (h.disk p) hx
      | some c =>
        rw [hhead] at hx
        rcases Disk.mem_write hx with hx | hx
        · exact Disk.mem_foldl hpre (h.disk p) hx
        · exact hcalls c (List.mem_of_mem_drop (List.mem_of_head? hhead)) x hx)
    fun p srv hch x hx => h.disk p x (hch.disk ▸ hx)
  rpc := step_bodies hs h.rpc fun p io n e hn hsec =>
    (h.section_at hrec hn hsec ha (hm _ _ _ _ hn hsec)).sends

theorem Entered.step (h : Entered Q s) (hrec : Recorded s) (ha : a.Sure) (hm : a.Makes Q)
    (hs : step cfg s a = some t) : Entered Q t :=
  h.step_at hrec ha hs fun _ _ n _ _ _ => hm.at n

/-! ## On the way to the state machine -/

def Handed (Q : LogEntry → Prop) (s : State) : Prop :=
  ∀ p x, .command x ∈ (s.servers p).sent ++ (s.servers p).batch → Q x

theorem Node.collectBatch_mem {k : ℕ} {batch : List ApplyMsg} (hf : l.firstIndex ≤ i)
    (h : Node.collectBatch l i k = some batch) (hx : .command x ∈ batch) : x ∈ l.reals := by
  induction k generalizing i batch with
  | zero =>
    obtain rfl := Option.some.inj h
    cases hx
  | succ k ih =>
    simp only [Node.collectBatch, Option.bind_eq_bind, Option.bind_eq_some_iff, Option.pure_def,
      Option.some.injEq] at h
    obtain ⟨y, hy, rest, hrest, rfl⟩ := h
    rcases List.mem_cons.mp hx with hxy | hx
    · obtain rfl := ApplyMsg.command.inj hxy
      rw [RaftLog.WF.entry_real (by omega)] at hy
      exact List.mem_of_getElem? hy
    · exact ih (by omega) hrest hx

theorem Handed.step (h : Handed Q s) (hent : Entered Q s)
    (hf : ∀ p n, s.node p = some n → n.log.firstIndex ≤ n.lastApplied)
    (hs : step cfg s a = some t) : Handed Q t := by
  refine step_servers (I := fun _ srv => ∀ x, ApplyMsg.command x ∈ srv.sent ++ srv.batch → Q x)
    hs h (fun p _ _ _ _ _ _ => h p) (fun p _ _ _ _ _ _ _ _ => h p) fun p srv hch x hx => ?_
  cases hch with
  | @applierTake _ n n' batch hn htake hb =>
    have hold := h p x
    rw [hb, List.append_nil] at hold
    rcases List.mem_append.mp hx with hx | hx
    · exact hold hx
    rcases Node.applierTake_cases htake with ⟨snap, -, -, rfl⟩ | ⟨-, -, hcol⟩
    · cases List.mem_singleton.mp hx
    · exact hent.up p n hn x (Node.collectBatch_mem (hf p n hn) hcol hx)
  | applierSend _ hb =>
    refine h p x ?_
    rw [hb]
    simpa using hx
  | crash _ => exact h p x hx
  | restart _ _ => cases hx
  | stop _ => exact h p x hx

end KMC
