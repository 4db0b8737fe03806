import KillMyCluster.Kv.Remote

/-! The walk of `viaLeader` over the nodes. A sweep that ends without an answer has asked every
known node once that can be dialled: the one that is taken for the leader first, and those that
failed not long ago last. -/

namespace KMC

open Trace

/-! ## The order of a sweep -/

namespace Client

variable {c : Client} {prefer now : ℕ}

/-- The preferred node and then the others, before penalties. -/
def candidates (c : Client) (prefer : ℕ) : List ℕ :=
  (if prefer ≠ 0 then [prefer] else []) ++ c.order.filter (· ≠ prefer)

def healthy (c : Client) (now : ℕ) (ids : List ℕ) : List ℕ :=
  ids.filter fun id => decide (c.badUntil id ≤ now)

def penalised (c : Client) (now : ℕ) (ids : List ℕ) : List ℕ :=
  ids.filter fun id => !decide (c.badUntil id ≤ now)

theorem place_eq (acc : List ℕ × List ℕ) (id : ℕ) : c.place now acc id =
    (acc.1 ++ c.healthy now [id], acc.2 ++ c.penalised now [id]) := by
  unfold place
  split
  · rename_i h
    simp [healthy, penalised, h]
  · rename_i h
    simp [healthy, penalised, not_lt.mp h]

theorem foldl_place (l : List ℕ) (acc : List ℕ × List ℕ) :
    l.foldl (fun acc id => if id = prefer then acc else c.place now acc id) acc =
      (acc.1 ++ c.healthy now (l.filter (· ≠ prefer)),
        acc.2 ++ c.penalised now (l.filter (· ≠ prefer))) := by
  induction l generalizing acc with
  | nil => simp [healthy, penalised]
  | cons id l ih =>
    rw [List.foldl_cons, ih]
    by_cases h : id = prefer
    · simp [h]
    · rw [if_neg h, place_eq, List.filter_cons_of_pos (by simpa using h)]
      simp only [healthy, penalised, List.append_assoc, ← List.filter_append,
        List.singleton_append]

theorem tryOrder_eq : c.tryOrder prefer now =
    c.healthy now (c.candidates prefer) ++ c.penalised now (c.candidates prefer) := by
  simp only [tryOrder, candidates, foldl_place]
  split
  · simp only [place_eq, healthy, penalised, List.nil_append, ← List.filter_append]
  · simp [healthy, penalised]

theorem tryOrder_perm : (c.tryOrder prefer now).Perm (c.candidates prefer) := by
  rw [tryOrder_eq]
  exact List.filter_append_perm _ _

theorem tryOrder_head (hp : prefer ≠ 0) (hb : c.badUntil prefer ≤ now) :
    ∃ ids, c.tryOrder prefer now = prefer :: ids := by
  rw [tryOrder_eq, candidates, if_pos hp, healthy, List.singleton_append,
    List.filter_cons_of_pos (by simpa using hb)]
  exact ⟨_, List.cons_append⟩

/-- A preferred node that is not known is left out, and so is no other. -/
theorem candidates_known (hnd : c.order.Nodup) (h0 : 0 ∉ c.order) :
    ((c.candidates prefer).filter (· ∈ c.order)).Perm c.order := by
  have hself : ∀ l : List ℕ, l ⊆ c.order → l.filter (· ∈ c.order) = l := fun l hl =>
    List.filter_eq_self.mpr fun id hid => decide_eq_true (hl hid)
  rw [candidates, List.filter_append, hself _ (List.filter_subset_self _)]
  by_cases hp : prefer ∈ c.order
  · have hne : prefer ≠ 0 := fun h => h0 (h ▸ hp)
    rw [if_pos hne, List.filter_cons_of_pos (by simpa using hp), List.filter_nil,
      List.singleton_append]
    have := (List.perm_cons_erase hp).symm
    rw [hnd.erase_eq_filter] at this
    simpa [bne, beq_eq_decide] using this
  · have hall : c.order.filter (· ≠ prefer) = c.order :=
      List.filter_eq_self.mpr fun id hid => decide_eq_true fun h => hp (h ▸ hid)
    rw [hall]
    split <;> simp [hp]

theorem candidates_perm (hnd : c.order.Nodup) (h0 : 0 ∉ c.order) :
    ((c.candidates prefer).filter (· ∈ c.stubs)).Perm c.stubs := by
  have hboth : (c.candidates prefer).filter (· ∈ c.stubs) =
      ((c.candidates prefer).filter (· ∈ c.order)).filter c.dials := by
    rw [List.filter_filter]
    refine List.filter_congr fun id _ => ?_
    simp [stubs, List.mem_filter, Bool.decide_and, Bool.and_comm]
  rw [hboth]
  exact (candidates_known hnd h0).filter _

end Client

/-! ## What a step does to a walk -/

variable {cfg : KvConfig} {s t u : RemoteState} {a : RemoteAction} {j l n : ℕ} {x : RemoteOp}
  {stubs ids new sweep so : List ℕ} {st st' : WalkStatus}

def RemoteState.sent (s : RemoteState) : List (ℕ × ℕ) := s.attempts.map fun q => (q.op, q.dst)

def RemoteState.asked (s : RemoteState) (n j : ℕ) : List ℕ :=
  ((s.sent.drop n).filter fun q => q.1 = j).map Prod.snd

def WalkStatus.left : WalkStatus → Option (List ℕ)
  | .walking ids | .asking _ _ ids => some ids
  | _ => none

/-- From one status of a walk to the next, with the nodes that are asked, when the pause after a
sweep does not begin. -/
inductive Walked (stubs : List ℕ) : WalkStatus → WalkStatus → List ℕ → Prop
  | rest (st : WalkStatus) : Walked stubs st st []
  | goes {st st' : WalkStatus} : WalkMove stubs st st' → st' ≠ .looping → Walked stubs st st' []
  | ask {id r : ℕ} {ids : List ℕ} : id ∈ stubs →
      Walked stubs (.walking (id :: ids)) (.asking id r ids) [id]
  | answer {id r : ℕ} {ids : List ℕ} {res : ApplyResult} :
      Walked stubs (.asking id r ids) (.returned r res) []

namespace RemoteState

theorem sent_set {q : Attempt} {r : ℕ} {i : CallId} (hq : s.attempts[r]? = some q) :
    (s.attempts.set r { q with call := some i }).map (fun q => (q.op, q.dst)) = s.sent := by
  have hr : s.sent[r]? = some (q.op, q.dst) := by simp [sent, hq]
  obtain ⟨hlt, heq⟩ := List.getElem?_eq_some_iff.mp hr
  rw [List.map_set]
  exact heq ▸ List.set_getElem_self hlt

theorem asked_nil (s : RemoteState) (j : ℕ) : s.asked s.sent.length j = [] := by
  simp [asked]

theorem asked_append (h : t.sent = s.sent ++ ids.map fun id => (l, id))
    (hn : n ≤ s.sent.length) : t.asked n j = s.asked n j ++ if l = j then ids else [] := by
  simp only [asked, h, List.drop_append_of_le_length hn, List.filter_append, List.map_append]
  congr 1
  split <;> simp [List.filter_map, Function.comp_def, *]

structure WalksOn (s t : RemoteState) (j : ℕ) (x x' : RemoteOp) (new : List ℕ) : Prop where
  op : t.ops[j]? = some x'
  client : x'.client = x.client
  walked : Walked (s.clients x.client).stubs x.status x'.status new
  length : s.sent.length ≤ t.sent.length
  asked : ∀ n ≤ s.sent.length, t.asked n j = s.asked n j ++ new

theorem walksOn_of_eq (hx : s.ops[j]? = some x) (hop : t.ops[j]? = s.ops[j]?)
    (hsent : t.sent = s.sent) : WalksOn s t j x x [] :=
  ⟨hop.trans hx, rfl, .rest _, hsent ▸ le_rfl, fun n _ => by simp [RemoteState.asked, hsent]⟩

theorem walksOn_setOp {y y' : RemoteOp} (hx : s.ops[j]? = some x) (hy : s.ops[l]? = some y)
    (hst : y.status = st) (hops : t.ops = s.ops.set l y') (hc : y'.client = y.client)
    (hw : l = j → Walked (s.clients y.client).stubs st y'.status new)
    (hsent : t.sent = s.sent ++ new.map fun id => (l, id)) : ∃ x' ids, WalksOn s t j x x' ids := by
  subst hst
  have hlen : s.sent.length ≤ t.sent.length := by simp [hsent]
  by_cases hl : l = j
  · subst hl
    obtain rfl := Option.mem_unique hx hy
    refine ⟨y', new, ?_, hc, hw rfl, hlen, fun n hn => ?_⟩
    · rw [hops, List.getElem?_set_self (List.getElem?_eq_some_iff.mp hx).1]
    · rw [asked_append hsent hn, if_pos rfl]
  · refine ⟨x, [], ?_, rfl, .rest _, hlen, fun n hn => ?_⟩
    · rw [hops, List.getElem?_set_ne hl, hx]
    · rw [asked_append hsent hn, if_neg hl]

theorem walksOn_quiet {y y' : RemoteOp} (hx : s.ops[j]? = some x) (hy : s.ops[l]? = some y)
    (hst : y.status = st) (hops : t.ops = s.ops.set l y') (hc : y'.client = y.client)
    (hsent : t.sent = s.sent) (hw : l = j → Walked (s.clients y.client).stubs st y'.status []) :
    ∃ x' ids, WalksOn s t j x x' ids :=
  walksOn_setOp hx hy hst hops hc hw (by simp [hsent])

end RemoteState

theorem remoteStep_stubs (hs : remoteStep cfg s a = some t) (c : ℕ) :
    (t.clients c).stubs = (s.clients c).stubs := by
  cases remoteStep_cases hs with
  | goes _ _ _ hord => exact hord c
  | @answer _ id _ _ y =>
    have hy : { s.clients y.client with leader := id }.stubs = (s.clients y.client).stubs := rfl
    exact RemoteState.stubs_update hy c
  | store _ _ | start _ | ask _ _ _ | arrive _ _ _ _ => rfl

theorem remoteStep_walksOn (hs : remoteStep cfg s a = some t) (hx : s.ops[j]? = some x)
    (ha : a ≠ .pause j) : ∃ x' new, RemoteState.WalksOn s t j x x' new := by
  cases remoteStep_cases hs with
  | store _ _ => exact ⟨x, [], RemoteState.walksOn_of_eq hx rfl rfl⟩
  | start _ =>
    exact ⟨x, [], RemoteState.walksOn_of_eq hx
      (List.getElem?_append_left (List.getElem?_eq_some_iff.mp hx).1) rfl⟩
  | goes hy hw hpause _ =>
    refine RemoteState.walksOn_quiet hx hy rfl rfl rfl rfl fun hl => .goes hw fun hst => ?_
    exact ha (hl ▸ hpause hst)
  | ask hy hst hid =>
    exact RemoteState.walksOn_setOp hx hy hst rfl rfl (fun _ => .ask hid)
      (by simp [RemoteState.sent])
  | arrive hq _ _ _ => exact ⟨x, [], RemoteState.walksOn_of_eq hx rfl (RemoteState.sent_set hq)⟩
  | answer hy hst _ _ _ =>
    exact RemoteState.walksOn_quiet hx hy hst rfl rfl rfl fun _ => .answer

/-! ## A sweep -/

/-- What has been asked and what is left make up the sweep, but for nodes without connection. -/
def WalkStatus.Through (stubs sweep so : List ℕ) (st : WalkStatus) : Prop :=
  st ≠ .looping ∧ ∀ ids, st.left = some ids →
    ∃ past, sweep = past ++ ids ∧ so = past.filter (· ∈ stubs)

theorem WalkStatus.Through.walked (h : st.Through stubs sweep so) (hw : Walked stubs st st' new) :
    st'.Through stubs sweep (so ++ new) := by
  obtain ⟨hloop, hleft⟩ := h
  -- one more node is behind, and it has been asked if there is a connection
  have hnext : ∀ {id : ℕ} {ids : List ℕ}, st.left = some (id :: ids) →
      new = [id].filter (· ∈ stubs) → ∃ past, sweep = past ++ ids ∧
        so ++ new = past.filter (· ∈ stubs) := by
    intro id ids hst hnew
    obtain ⟨past, rfl, rfl⟩ := hleft _ hst
    exact ⟨past ++ [id], by simp, by rw [hnew, List.filter_append]⟩
  cases hw with
  | rest => exact ⟨hloop, by simpa using hleft⟩
  | goes hm hne =>
    refine ⟨hne, fun ids' heq => ?_⟩
    cases hm with
    | sweep => exact absurd rfl hloop
    | skip hid =>
      obtain rfl := Option.some.inj heq
      exact hnext rfl (by simp [hid])
    | back => simpa using hleft ids' heq
    | pause => exact absurd rfl hne
    | giveUp => cases heq
  | ask hid =>
    refine ⟨by simp, fun ids' heq => ?_⟩
    obtain rfl := Option.some.inj heq
    exact hnext rfl (by simp [hid])
  | answer => exact ⟨by simp, fun ids' heq => by cases heq⟩

def RemoteState.Sweeping (n j : ℕ) (stubs sweep : List ℕ) (s : RemoteState) : Prop :=
  ∃ x, s.ops[j]? = some x ∧ (s.clients x.client).stubs = stubs ∧ n ≤ s.sent.length ∧
    x.status.Through stubs sweep (s.asked n j)

theorem RemoteState.Sweeping.step (h : s.Sweeping n j stubs sweep) (ha : a ≠ .pause j)
    (hs : remoteStep cfg s a = some t) : t.Sweeping n j stubs sweep := by
  obtain ⟨x, hx, rfl, hn, hthrough⟩ := h
  obtain ⟨x', new, hw⟩ := remoteStep_walksOn hs hx ha
  refine ⟨x', hw.op, ?_, hn.trans hw.length, ?_⟩
  · rw [hw.client, remoteStep_stubs hs]
  · rw [hw.asked n hn]
    exact hthrough.walked hw.walked

theorem RemoteState.sweeping_of_sweep {now : ℕ} (hx : s.ops[j]? = some x)
    (hs : remoteStep cfg s (.sweep j now) = some u) : u.Sweeping s.sent.length j
      (s.clients x.client).stubs ((s.clients x.client).tryOrder x.prefer now) := by
  obtain ⟨y, hy, hs⟩ := Option.bind_eq_some_iff.mp hs
  obtain rfl := Option.mem_unique hx hy
  split at hs
  · obtain rfl := Option.some.inj hs
    refine ⟨_, List.getElem?_set_self (List.getElem?_eq_some_iff.mp hx).1, rfl, le_rfl, by simp,
      fun ids heq => ?_⟩
    obtain rfl := Option.some.inj heq
    exact ⟨[], rfl, s.asked_nil j⟩
  · cases hs

/-- A sweep that has come to its end has sent the request once to every known node that can be
dialled, and to no other: to the preferred one first, if it has not failed lately, and to those that
have after all the others. -/
theorem sweep_asks_everyone {now : ℕ} {y : RemoteOp} (hx : s.ops[j]? = some x)
    (hnd : (s.clients x.client).order.Nodup) (h0 : 0 ∉ (s.clients x.client).order)
    (hsweep : remoteStep cfg s (.sweep j now) = some u)
    (hrun : Reaches (remoteStep cfg) (fun _ a => a ≠ .pause j) u t)
    (hy : t.ops[j]? = some y) (hst : y.status = .walking []) :
    (t.asked s.sent.length j).Perm (s.clients x.client).stubs ∧
    (∃ good bad, t.asked s.sent.length j = good ++ bad ∧
      (∀ id ∈ good, (s.clients x.client).badUntil id ≤ now) ∧
      ∀ id ∈ bad, now < (s.clients x.client).badUntil id) ∧
    (x.prefer ∈ (s.clients x.client).stubs → (s.clients x.client).badUntil x.prefer ≤ now →
      (t.asked s.sent.length j).head? = some x.prefer) := by
  have hsweeping : t.Sweeping s.sent.length j (s.clients x.client).stubs
      ((s.clients x.client).tryOrder x.prefer now) :=
    hrun.invariant (fun _ _ _ h ha hs => h.step ha hs)
      (RemoteState.sweeping_of_sweep hx hsweep)
  obtain ⟨y', hy', -, -, -, hleft⟩ := hsweeping
  obtain rfl := Option.mem_unique hy hy'
  obtain ⟨past, hpast, hasked⟩ := hleft [] (by rw [hst]; rfl)
  rw [List.append_nil] at hpast
  rw [hasked, ← hpast]
  refine ⟨(Client.tryOrder_perm.filter _).trans (Client.candidates_perm hnd h0), ?_,
    fun hp hb => ?_⟩
  · rw [Client.tryOrder_eq, List.filter_append]
    refine ⟨_, _, rfl, fun id hid => ?_, fun id hid => ?_⟩
    · exact of_decide_eq_true (List.mem_filter.mp (List.mem_of_mem_filter hid)).2
    · have := (List.mem_filter.mp (List.mem_of_mem_filter hid)).2
      simpa using this
  · obtain ⟨ids, hids⟩ := Client.tryOrder_head (fun h => h0 (h ▸ List.mem_of_mem_filter hp)) hb
    rw [hids, List.filter_cons_of_pos (by simpa using hp), List.head?_cons]

/-- A client of a pair begins to read. It knows of a third node, whose address is no good. -/
def readBegins : RemoteState :=
  (exec (remoteStep .pair)
    (KvConfig.pair.remote fun _ => { order := [1, 2, 3], dials := fun id => id ≠ 3 })
    [.start 0 (.get [1] 1 [7])]).get rfl

/-- Neither of the nodes answers. -/
theorem sweep_asks_everyone_pair : ∃ u t y, remoteStep .pair readBegins (.sweep 0 0) = some u ∧
    Reaches (remoteStep .pair) (fun _ a => a ≠ .pause 0) u t ∧ t.ops[0]? = some y ∧
    y.status = .walking [] ∧ (t.asked 0 0).Perm [1, 2] := by
  have hx : readBegins.ops[0]? = some ⟨0, .get [1] 1 [7], 0, .looping⟩ := rfl
  have hrun := Reaches.of_exec (remoteStep .pair) (fun _ a => a ≠ .pause 0)
    ((remoteStep .pair readBegins (.sweep 0 0)).get rfl)
    [.ask 0, .fail 0 10, .ask 0, .fail 0 20, .skip 0] (.of_forall (fun _ => by simp) _) rfl
  exact ⟨_, _, _, rfl, hrun, rfl, rfl,
    (sweep_asks_everyone hx (by decide) (by decide) rfl hrun rfl rfl).1⟩

end KMC
