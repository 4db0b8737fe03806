import KillMyCluster.Lib.Trace
import Mathlib.Data.List.Basic
import Mathlib.Data.Nat.Basic
import Mathlib.Logic.Function.Basic
import Mathlib.Order.Basic

/-! Outages and their heals. A kill or a partition registers a heal job before it touches the
container, and the reconciler leaves alone what has a job registered. The job's timer callback runs
without the lock between its check of `cancel` and its `delete`, which goes by node id, and the
reconciler acts some time after it has looked. -/

namespace KMC.ControlPlane

open Trace

inductive HealKind
  | start
  | reconnect

/-- Where the timer callback of a job is: it checks `cancel`, runs the heal, deletes the entry. -/
inductive JobPhase
  | waiting
  | checked
  | healed
  | finished
  deriving DecidableEq

structure HealJob where
  id : ℕ
  kind : HealKind
  /-- The request that scheduled it. -/
  owner : ℕ
  /-- The channel `cancel` is closed. -/
  cancelled : Bool := false
  phase : JobPhase := .waiting
  /-- The kill or partition has succeeded. -/
  down : Bool := false
  /-- It has fired, or a later action has cancelled it. -/
  ended : Bool := false

/-- What `healMu` guards, and the jobs there have been. -/
structure Heals where
  entry : ℕ → Option ℕ := fun _ => none
  jobs : List HealJob := []

structure Container where
  running : Bool := true
  connected : Bool := true
  deriving DecidableEq

/-- A running machine off the cluster network. -/
def Container.partitioned (network : Bool) (c : Container) : Bool :=
  network && c.running && !c.connected

/-- A call to Docker does what it should, fails, or does it and reports an error. -/
inductive Outcome
  | ok
  | failed
  | lost
  deriving DecidableEq

inductive Op
  | kill
  | partition
  | restart
  deriving DecidableEq

inductive Stage
  | cancelled
  | inspected (c : Container)
  /-- A restart whose machine runs. -/
  | started (c : Container)
  | scheduled (job : ℕ)
  /-- The call to Docker failed. -/
  | failed (job : ℕ)
  | done (ok : Bool)
  deriving DecidableEq

structure Request where
  op : Op
  id : ℕ
  stage : Stage

inductive Care
  | visit
  | inspect
  | recheck (c : Container)
  | start
  /-- Reconnect, after a start or instead of one. -/
  | join
  deriving DecidableEq

/-- A pass of the reconciler: the list call's answer and the nodes left. -/
structure Pass where
  listed : ℕ → Option Container
  todo : List ℕ
  care : Care := .visit

structure HealState where
  heals : Heals := {}
  containers : ℕ → Container := fun _ => {}
  requests : List Request := []
  pass : Option Pass := none

inductive HealAction
  | request (op : Op) (id : ℕ)
  | proceed (r : ℕ) (out : Outcome)
  | fire (j : ℕ)
  | heal (j : ℕ) (inspect start connect : Outcome)
  | delete (j : ℕ)
  | tick (known : List ℕ)
  | reconcile (out : Outcome)
  /-- A machine changes by itself. -/
  | drift (id : ℕ) (c : Container)

structure Whitelist where
  ids : List ℕ
  network : Bool

/-- `Nodes`: ordered by id, up to 64. -/
def Whitelist.nodes (cfg : Whitelist) : List ℕ := (List.range' 1 64).filter (· ∈ cfg.ids)

/-! ## Jobs -/

namespace Heals

def update (h : Heals) (j : ℕ) (f : HealJob → HealJob) : Heals :=
  { h with jobs := h.jobs.modify j f }

def drop (h : Heals) (id : ℕ) : Heals := { h with entry := Function.update h.entry id none }

/-- `cancelHeal`; `later` tells whether it is the beginning of an action or the end of one that
failed. -/
def cancelHeal (h : Heals) (id : ℕ) (later : Bool) : Heals :=
  match h.entry id with
  | some j =>
    (h.update j fun job => { job with cancelled := true, ended := job.ended || later }).drop id
  | none => h

def scheduleHeal (h : Heals) (id : ℕ) (kind : HealKind) (owner : ℕ) : Heals :=
  let h := h.cancelHeal id true
  { entry := Function.update h.entry id (some h.jobs.length)
    jobs := h.jobs ++ [{ id := id, kind := kind, owner := owner }] }

end Heals

/-! ## Docker -/

namespace HealState

def setContainer (s : HealState) (id : ℕ) (c : Container) : HealState :=
  { s with containers := Function.update s.containers id c }

def docker (s : HealState) (id : ℕ) (out : Outcome) (f : Container → Container) : HealState :=
  if out = .failed then s else s.setContainer id (f (s.containers id))

def stop (s : HealState) (id : ℕ) (out : Outcome) : HealState :=
  s.docker id out fun c => { c with running := false }

def start (s : HealState) (id : ℕ) (out : Outcome) : HealState :=
  s.docker id out fun c => { c with running := true }

def networkDisconnect (s : HealState) (id : ℕ) (out : Outcome) : HealState :=
  s.docker id out fun c => { c with connected := false }

def connectNetwork (cfg : Whitelist) (s : HealState) (id : ℕ) (out : Outcome) : HealState :=
  if cfg.network then s.docker id out fun c => { c with connected := true } else s

def runHeal (cfg : Whitelist) (s : HealState) (id : ℕ) (inspect start connect : Outcome) :
    HealKind → HealState
  | .start =>
    if inspect = .ok ∧ (s.containers id).running then s
    else if start = .ok then (s.start id start).connectNetwork cfg id connect
    else s.start id start
  | .reconnect => s.connectNetwork cfg id connect

def setRequest (s : HealState) (r : ℕ) (q : Request) (stage : Stage) : HealState :=
  { s with requests := s.requests.set r { q with stage := stage } }

/-! ## Requests -/

def schedule (s : HealState) (r : ℕ) (q : Request) (kind : HealKind) : HealState :=
  let h := s.heals.scheduleHeal q.id kind r
  { s with heals := h }.setRequest r q (.scheduled (h.jobs.length - 1))

def strike (s : HealState) (r : ℕ) (q : Request) (j : ℕ) (out : Outcome) : HealState :=
  let s := if q.op = .kill then s.stop q.id out else s.networkDisconnect q.id out
  if out = .ok then
    { s with heals := s.heals.update j fun job => { job with down := true } }.setRequest r q
      (.done true)
  else s.setRequest r q (.failed j)

def proceed (cfg : Whitelist) (s : HealState) (r : ℕ) (q : Request) (out : Outcome) :
    Option HealState :=
  match q.stage with
  | .cancelled =>
    if q.op = .kill then some (s.schedule r q .start)
    else if out ≠ .ok then some (s.setRequest r q (.done false))
    else
      let c := s.containers q.id
      if q.op = .partition ∧ (!c.running || c.partitioned cfg.network) then
        some (s.setRequest r q (.done false))
      else some (s.setRequest r q (.inspected c))
  | .inspected c =>
    if q.op = .partition then some (s.schedule r q .reconnect)
    else if c.running then some (s.setRequest r q (.started c))
    else if out = .ok then some ((s.start q.id out).setRequest r q (.started c))
    else some ((s.start q.id out).setRequest r q (.done false))
  | .started c =>
    let s := if c.partitioned cfg.network || cfg.network then s.connectNetwork cfg q.id out else s
    some (s.setRequest r q (.done true))
  | .scheduled j => some (s.strike r q j out)
  | .failed _ =>
    some ({ s with heals := s.heals.cancelHeal q.id false }.setRequest r q (.done false))
  | .done _ => none

/-! ## The reconciler -/

def setPass (s : HealState) (pass : Pass) : HealState := { s with pass := some pass }

def next (s : HealState) (pass : Pass) (rest : List ℕ) : HealState :=
  s.setPass { pass with todo := rest, care := .visit }

def reconcileOnce (cfg : Whitelist) (s : HealState) (pass : Pass) (out : Outcome) : HealState :=
  match pass.todo with
  | [] => { s with pass := none }
  | id :: rest =>
    match pass.care with
    | .visit =>
      if (s.heals.entry id).isSome then s.next pass rest
      else match pass.listed id with
        | none => s.next pass rest
        | some c =>
          if c.running && !c.partitioned cfg.network then s.next pass rest
          else s.setPass { pass with care := .inspect }
    | .inspect =>
      if out = .ok then s.setPass { pass with care := .recheck (s.containers id) }
      else s.next pass rest
    | .recheck c =>
      if (s.heals.entry id).isSome then s.next pass rest
      else if !c.running then s.setPass { pass with care := .start }
      else if c.partitioned cfg.network then s.setPass { pass with care := .join }
      else s.next pass rest
    | .start =>
      if out = .ok ∧ cfg.network then (s.start id out).setPass { pass with care := .join }
      else (s.start id out).next pass rest
    | .join => (s.connectNetwork cfg id out).next pass rest

end HealState

def healStep (cfg : Whitelist) (s : HealState) : HealAction → Option HealState
  | .request op id =>
    if id ∈ cfg.ids ∧ (op = .partition → cfg.network) then
      some { s with
        heals := s.heals.cancelHeal id true
        requests := s.requests ++ [⟨op, id, .cancelled⟩] }
    else none
  | .proceed r out => do s.proceed cfg r (← s.requests[r]?) out
  | .fire j => do
    let job ← s.heals.jobs[j]?
    if job.phase = .waiting then
      let phase := if job.cancelled then .finished else .checked
      return { s with heals := s.heals.update j ({ · with phase := phase }) }
    else none
  | .heal j inspect start connect => do
    let job ← s.heals.jobs[j]?
    if job.phase = .checked then
      let s := s.runHeal cfg job.id inspect start connect job.kind
      return { s with heals := s.heals.update j ({ · with phase := .healed }) }
    else none
  | .delete j => do
    let job ← s.heals.jobs[j]?
    if job.phase = .healed then
      return { s with heals :=
        (s.heals.update j ({ · with phase := .finished, ended := true })).drop job.id }
    else none
  | .tick known =>
    if s.pass.isNone then
      some (s.setPass
        { listed := fun id => if id ∈ known then some (s.containers id) else none
          todo := cfg.nodes })
    else none
  | .reconcile out => s.pass.map fun pass => s.reconcileOnce cfg pass out
  | .drift id c => some (s.setContainer id c)

/-! ## The table of jobs -/

/-- The callback is between its check and its delete. -/
def HealJob.Busy (job : HealJob) : Prop := job.phase = .checked ∨ job.phase = .healed

/-- The table names the one job of each node that is neither cancelled nor finished, and no callback
of another job is under way. -/
structure Heals.Ok (h : Heals) : Prop where
  entry : ∀ id j, h.entry id = some j → ∃ job, h.jobs[j]? = some job ∧ job.id = id ∧
    job.cancelled = false ∧ job.phase ≠ .finished
  live : ∀ (j : ℕ) (job : HealJob), h.jobs[j]? = some job → job.cancelled = false →
    job.phase ≠ .finished → h.entry job.id = some j
  busy : ∀ (j : ℕ) (job : HealJob) k, h.jobs[j]? = some job → job.Busy →
    h.entry job.id = some k → k = j

section Table

variable {h : Heals} {f : HealJob → HealJob} {j k id : ℕ} {job job' : HealJob}

theorem Heals.update_jobs (hj : (h.update j f).jobs[k]? = some job') :
    ∃ job, h.jobs[k]? = some job ∧ job' = if j = k then f job else job := by
  simp only [Heals.update, List.getElem?_modify] at hj
  obtain ⟨job, hjob, hf⟩ := Option.map_eq_some_iff.mp hj
  exact ⟨job, hjob, hf.symm⟩

theorem Heals.update_of (hj : h.jobs[j]? = some job) :
    (h.update j f).jobs[j]? = some (f job) := by
  simp [Heals.update, hj]

theorem Heals.update_ne (hjk : j ≠ k) : (h.update j f).jobs[k]? = h.jobs[k]? := by
  simp [Heals.update, hjk]

/-- A change of a job that leaves alone whether it is cancelled, finished or under way. -/
theorem Heals.Ok.update (hok : h.Ok) (hj : h.jobs[j]? = some job) (hid : (f job).id = job.id)
    (hc : (f job).cancelled = job.cancelled)
    (hfin : (f job).phase = .finished → job.phase = .finished ∨ job.cancelled = true)
    (hfin' : job.phase = .finished → (f job).phase = .finished)
    (hbusy : (f job).Busy → job.Busy ∨ job.cancelled = false ∧ job.phase ≠ .finished) :
    (h.update j f).Ok := by
  refine ⟨fun id k hk => ?_, fun k job' hk hc' hp => ?_, fun k job' l hk hb hl => ?_⟩
  · obtain ⟨job₀, hk₀, hid₀, hc₀, hp₀⟩ := hok.entry id k hk
    by_cases hjk : j = k
    · subst hjk
      obtain rfl := Option.mem_unique hj hk₀
      refine ⟨f job, update_of hj, hid.trans hid₀, hc.trans hc₀, fun hp => ?_⟩
      rcases hfin hp with hp | hc
      · exact hp₀ hp
      · rw [hc] at hc₀
        cases hc₀
    · exact ⟨job₀, (update_ne hjk).trans hk₀, hid₀, hc₀, hp₀⟩
  · obtain ⟨job₀, hk₀, rfl⟩ := update_jobs hk
    by_cases hjk : j = k
    · subst hjk
      obtain rfl := Option.mem_unique hj hk₀
      rw [if_pos rfl] at hc' hp ⊢
      rw [hid]
      exact hok.live j job hj (hc.symm.trans hc') fun hp₀ => hp (hfin' hp₀)
    · rw [if_neg hjk] at hc' hp ⊢
      exact hok.live k job₀ hk₀ hc' hp
  · obtain ⟨job₀, hk₀, rfl⟩ := update_jobs hk
    by_cases hjk : j = k
    · subst hjk
      obtain rfl := Option.mem_unique hj hk₀
      rw [if_pos rfl] at hb hl
      rw [hid] at hl
      rcases hbusy hb with hb | ⟨hc₀, hp₀⟩
      · exact hok.busy j job l hj hb hl
      · exact Option.some.inj (hl.symm.trans (hok.live j job hj hc₀ hp₀))
    · rw [if_neg hjk] at hb hl
      exact hok.busy k job₀ l hk₀ hb hl

/-- A job of node `id`, the registered one if there is any, is cancelled or finishes, and the entry
goes. -/
theorem Heals.Ok.drop (hok : h.Ok) (hj : h.jobs[j]? = some job)
    (hid : (f job).id = job.id) (hend : (f job).cancelled = true ∨ (f job).phase = .finished)
    (hentry : ∀ k, h.entry job.id = some k → k = j) : ((h.update j f).drop job.id).Ok := by
  have hdrop : ∀ {id k : ℕ}, ((h.update j f).drop job.id).entry id = some k →
      id ≠ job.id ∧ h.entry id = some k := by
    intro id k hk
    by_cases hii : id = job.id
    · simp [Heals.drop, hii] at hk
    · exact ⟨hii, by simpa [Heals.drop, Heals.update, hii] using hk⟩
  refine ⟨fun id k hk => ?_, fun k job' hk hc' hp => ?_, fun k job' l hk hb hl => ?_⟩
  · obtain ⟨hii, hk⟩ := hdrop hk
    obtain ⟨job₀, hk₀, hid₀, hrest⟩ := hok.entry id k hk
    have hjk : j ≠ k := by
      rintro rfl
      obtain rfl := Option.mem_unique hj hk₀
      exact hii hid₀.symm
    exact ⟨job₀, (update_ne hjk).trans hk₀, hid₀, hrest⟩
  · obtain ⟨job₀, hk₀, rfl⟩ := update_jobs hk
    by_cases hjk : j = k
    · subst hjk
      obtain rfl := Option.mem_unique hj hk₀
      rw [if_pos rfl] at hc' hp
      rcases hend with hend | hend
      · rw [hend] at hc'
        cases hc'
      · exact absurd hend hp
    · rw [if_neg hjk] at hc' hp ⊢
      have hlive := hok.live k job₀ hk₀ hc' hp
      have hii : job₀.id ≠ job.id := fun heq => hjk (hentry k (heq ▸ hlive)).symm
      simpa [Heals.drop, Heals.update, hii] using hlive
  · obtain ⟨hii, hl⟩ := hdrop hl
    obtain ⟨job₀, hk₀, rfl⟩ := update_jobs hk
    by_cases hjk : j = k
    · subst hjk
      obtain rfl := Option.mem_unique hj hk₀
      rw [if_pos rfl] at hii
      exact absurd hid hii
    · rw [if_neg hjk] at hb hl
      exact hok.busy k job₀ l hk₀ hb hl

theorem Heals.Ok.cancelHeal (hok : h.Ok) (id : ℕ) (later : Bool) : (h.cancelHeal id later).Ok := by
  unfold Heals.cancelHeal
  split
  · rename_i j hj
    obtain ⟨job, hjob, rfl, -⟩ := hok.entry id j hj
    exact hok.drop hjob rfl (.inl rfl) fun k hk => Option.mem_unique hk hj
  · exact hok

theorem Heals.cancelHeal_entry (h : Heals) (id id' : ℕ) (later : Bool) :
    (h.cancelHeal id later).entry id' = if id' = id then none else h.entry id' := by
  unfold Heals.cancelHeal
  split
  · by_cases hii : id' = id <;> simp [Heals.drop, Heals.update, hii]
  · rename_i hno
    by_cases hii : id' = id <;> simp [hii, hno]

/-- What `cancelHeal` does to a job: it may cancel it, if it is the registered one. -/
theorem Heals.cancelHeal_jobs {later : Bool}
    (hk : (h.cancelHeal id later).jobs[k]? = some job') :
    ∃ job, h.jobs[k]? = some job ∧ (job' = job ∨ h.entry id = some k ∧
      job' = { job with cancelled := true, ended := job.ended || later }) := by
  unfold Heals.cancelHeal at hk
  split at hk
  · rename_i j hj
    obtain ⟨job, hjob, hf⟩ := update_jobs hk
    refine ⟨job, hjob, ?_⟩
    split at hf
    · rename_i hjk
      exact .inr ⟨hjk ▸ hj, hf⟩
    · exact .inl hf
  · exact ⟨job', hk, .inl rfl⟩

/-- A new job is registered while no callback of the node is under way. -/
theorem Heals.Ok.scheduleHeal (hok : h.Ok) (id : ℕ) (kind : HealKind) (owner : ℕ)
    (hfree : ∀ (j : ℕ) (job : HealJob), h.jobs[j]? = some job → job.id = id → ¬ job.Busy) :
    (h.scheduleHeal id kind owner).Ok := by
  have hok' := hok.cancelHeal id true
  have hnone : (h.cancelHeal id true).entry id = none := by simp [cancelHeal_entry]
  have hjobs : ∀ {k : ℕ} {job : HealJob}, (h.scheduleHeal id kind owner).jobs[k]? = some job →
      (h.cancelHeal id true).jobs[k]? = some job ∨
        k = (h.cancelHeal id true).jobs.length ∧
          job = { id := id, kind := kind, owner := owner } := by
    intro k job hk
    simp only [Heals.scheduleHeal, List.getElem?_append, List.getElem?_singleton] at hk
    split at hk
    · exact .inl hk
    · split at hk
      · exact .inr ⟨by omega, (Option.some.inj hk).symm⟩
      · cases hk
  have hentry : ∀ id', (h.scheduleHeal id kind owner).entry id' =
      if id' = id then some (h.cancelHeal id true).jobs.length
      else (h.cancelHeal id true).entry id' := by
    intro id'
    by_cases hii : id' = id <;> simp [Heals.scheduleHeal, hii]
  refine ⟨fun id' k hk => ?_, fun k job hk hc hp => ?_, fun k job l hk hb hl => ?_⟩
  · rw [hentry] at hk
    split at hk
    · rename_i hii
      obtain rfl := Option.some.inj hk
      exact ⟨{ id := id, kind := kind, owner := owner }, by simp [Heals.scheduleHeal], hii.symm,
        rfl, by simp⟩
    · obtain ⟨job, hjob, hrest⟩ := hok'.entry id' k hk
      refine ⟨job, ?_, hrest⟩
      have hlt := (List.getElem?_eq_some_iff.mp hjob).1
      simp only [Heals.scheduleHeal, List.getElem?_append_left hlt, hjob]
  · rw [hentry]
    rcases hjobs hk with hk | ⟨rfl, rfl⟩
    · have hlive := hok'.live k job hk hc hp
      have hii : job.id ≠ id := by
        intro heq
        rw [heq, hnone] at hlive
        cases hlive
      rw [if_neg hii, hlive]
    · simp
  · rcases hjobs hk with hk | ⟨rfl, rfl⟩
    · obtain ⟨job₀, hk₀, hcase⟩ := cancelHeal_jobs hk
      have hii : job.id ≠ id := by
        rcases hcase with rfl | ⟨-, rfl⟩
        · exact fun heq => hfree k job hk₀ heq hb
        · exact fun heq => hfree k job₀ hk₀ heq hb
      rw [hentry, if_neg hii] at hl
      exact hok'.busy k job l hk hb hl
    · simp [HealJob.Busy] at hb

end Table

/-! ## What is known of jobs, requests and the reconciler -/

def Pass.acting (pass : Pass) : Option ℕ :=
  match pass.todo, pass.care with
  | id :: _, .start => some id
  | id :: _, .join => some id
  | _, _ => none

theorem Pass.acting_eq {pass : Pass} {id : ℕ} (h : pass.acting = some id) :
    (pass.care = .start ∨ pass.care = .join) ∧ pass.todo.head? = some id := by
  unfold Pass.acting at h
  split at h
  · rename_i htodo hcare
    exact ⟨.inl hcare, by rw [htodo]; exact h⟩
  · rename_i htodo hcare
    exact ⟨.inr hcare, by rw [htodo]; exact h⟩
  · cases h

def HealState.acting (s : HealState) : Option ℕ := s.pass.bind Pass.acting

def HealState.Has (s : HealState) (r : ℕ) (stage : Stage) : Prop :=
  ∃ q, s.requests[r]? = some q ∧ q.stage = stage

/-- The request has scheduled job `j` and does not know yet what comes of it. -/
def Request.Claims (q : Request) (j : ℕ) : Prop := q.stage = .scheduled j ∨ q.stage = .failed j

structure Owned (s : HealState) : Prop where
  table : s.heals.Ok
  past : ∀ (j : ℕ) (job : HealJob), s.heals.jobs[j]? = some job → job.phase = .finished →
    job.cancelled = false → job.ended = true
  cut : ∀ (j : ℕ) (job : HealJob), s.heals.jobs[j]? = some job → job.cancelled = true →
    job.ended = true ∨ s.Has job.owner (.done false)
  won : ∀ (j : ℕ) (job : HealJob), s.heals.jobs[j]? = some job → job.down = true →
    s.Has job.owner (.done true)
  claim : ∀ (r : ℕ) (q : Request) j, s.requests[r]? = some q → q.Claims j →
    ∃ job, s.heals.jobs[j]? = some job ∧ job.owner = r ∧ job.id = q.id
  act : ∀ id, s.acting = some id → ∀ (j : ℕ) (job : HealJob), s.heals.jobs[j]? = some job →
    job.id = id → job.down = true → job.ended = true

theorem owned_init : Owned {} := by
  refine ⟨⟨?_, ?_, ?_⟩, ?_, ?_, ?_, ?_, ?_⟩ <;> simp

section Steps

variable {s t : HealState} {j r : ℕ} {job job' : HealJob}

/-- An outage that lasts is registered. -/
theorem Owned.registered (h : Owned s) (hj : s.heals.jobs[j]? = some job) (hd : job.down = true)
    (he : job.ended = false) : s.heals.entry job.id = some j := by
  have hc : job.cancelled = false := by
    by_contra hc
    rcases h.cut j job hj (by simpa using hc) with hend | ⟨q, hq, hst⟩
    · rw [hend] at he
      cases he
    · obtain ⟨q', hq', hst'⟩ := h.won j job hj hd
      obtain rfl := Option.mem_unique hq hq'
      rw [hst] at hst'
      cases hst'
  refine h.table.live j job hj hc fun hp => ?_
  rw [h.past j job hj hp hc] at he
  cases he

structure Evolves (t : HealState) (job job' : HealJob) : Prop where
  id : job'.id = job.id
  owner : job'.owner = job.owner
  cancelled : job.cancelled = true → job'.cancelled = true
  ended : job.ended = true → job'.ended = true
  finished : job'.phase = .finished →
    job.phase = .finished ∨ job'.cancelled = true ∨ job'.ended = true
  cut : job'.cancelled = true →
    job.cancelled = true ∨ job'.ended = true ∨ t.Has job.owner (.done false)
  down : job'.down = true → job.down = true ∨
    t.Has job.owner (.done true) ∧ t.acting ≠ some job.id

theorem Evolves.refl (t : HealState) (job : HealJob) : Evolves t job job :=
  ⟨rfl, rfl, fun h => h, fun h => h, .inl, .inl, .inl⟩

def HealJob.Fresh (job : HealJob) : Prop :=
  job.cancelled = false ∧ job.phase = .waiting ∧ job.down = false

theorem Owned.grow (h : Owned s) (htable : t.heals.Ok)
    (hjobs : ∀ (k : ℕ) (job' : HealJob), t.heals.jobs[k]? = some job' →
      (∃ job, s.heals.jobs[k]? = some job ∧ Evolves t job job') ∨
        s.heals.jobs.length ≤ k ∧ job'.Fresh)
    (hlen : s.heals.jobs.length ≤ t.heals.jobs.length)
    (hdone : ∀ r b, s.Has r (.done b) → t.Has r (.done b))
    (hclaim : ∀ (r : ℕ) (q' : Request) j, t.requests[r]? = some q' → q'.Claims j →
      (∃ q, s.requests[r]? = some q ∧ q.id = q'.id ∧ q.Claims j) ∨
      ∃ job, t.heals.jobs[j]? = some job ∧ job.owner = r ∧ job.id = q'.id)
    (hact : ∀ id, t.acting = some id → s.acting = some id ∨ s.heals.entry id = none) :
    Owned t := by
  refine ⟨htable, fun k job' hk hp hc => ?_, fun k job' hk hc => ?_, fun k job' hk hd => ?_,
    fun r q' j hq hcl => ?_, fun id hid k job' hk hkid hd => ?_⟩
  · rcases hjobs k job' hk with ⟨job, hjob, hev⟩ | ⟨-, -, hw, -⟩
    · rcases hev.finished hp with hp₀ | hc' | hend
      · have hc₀ : job.cancelled = false := by
          by_contra hno
          rw [hev.cancelled (by simpa using hno)] at hc
          cases hc
        exact hev.ended (h.past k job hjob hp₀ hc₀)
      · rw [hc'] at hc
        cases hc
      · exact hend
    · rw [hp] at hw
      cases hw
  · rcases hjobs k job' hk with ⟨job, hjob, hev⟩ | ⟨-, hno, -⟩
    · rw [hev.owner]
      rcases hev.cut hc with hc₀ | hend | hfail
      · exact (h.cut k job hjob hc₀).imp hev.ended (hdone _ _)
      · exact .inl hend
      · exact .inr hfail
    · rw [hno] at hc
      cases hc
  · rcases hjobs k job' hk with ⟨job, hjob, hev⟩ | ⟨-, -, -, hno⟩
    · rw [hev.owner]
      rcases hev.down hd with hd₀ | ⟨hwon, -⟩
      · exact hdone _ _ (h.won k job hjob hd₀)
      · exact hwon
    · rw [hno] at hd
      cases hd
  · rcases hclaim r q' j hq hcl with ⟨q, hq₀, hid, hcl₀⟩ | hnew
    · obtain ⟨job, hjob, hown, hjid⟩ := h.claim r q j hq₀ hcl₀
      have hlt := (List.getElem?_eq_some_iff.mp hjob).1
      have hk := List.getElem?_eq_getElem (lt_of_lt_of_le hlt hlen)
      refine ⟨_, hk, ?_⟩
      rcases hjobs j _ hk with ⟨job₀, hjob₀, hev⟩ | ⟨hle, -⟩
      · obtain rfl := Option.mem_unique hjob hjob₀
        exact ⟨hev.owner.trans hown, hev.id.trans (hjid.trans hid)⟩
      · omega
    · exact hnew
  · rcases hjobs k job' hk with ⟨job, hjob, hev⟩ | ⟨-, -, -, hno⟩
    · rw [hev.id] at hkid
      rcases hev.down hd with hd₀ | ⟨-, hno⟩
      · refine hev.ended ?_
        rcases hact id hid with hid₀ | hnone
        · exact h.act id hid₀ k job hjob hkid hd₀
        · by_contra hopen
          have := h.registered hjob hd₀ (by simpa using hopen)
          rw [hkid, hnone] at this
          cases this
      · exact absurd (hkid ▸ hid) hno
    · rw [hno] at hd
      cases hd

/-- Only machines, the list or the reconciler have changed. -/
theorem Owned.same (h : Owned s) (hh : t.heals = s.heals) (hr : t.requests = s.requests)
    (hact : ∀ id, t.acting = some id → s.acting = some id ∨ s.heals.entry id = none) :
    Owned t := by
  refine h.grow (hh ▸ h.table) (fun k job' hk => .inl ⟨job', hh ▸ hk, .refl t job'⟩) (by rw [hh])
    (fun r b hb => ?_) (fun r q' j hq hcl => .inl ⟨q', hr ▸ hq, rfl, hcl⟩) hact
  simpa only [HealState.Has, hr] using hb

/-- One job has changed. -/
theorem Owned.update {f : HealJob → HealJob} (h : Owned s) (htable : t.heals.Ok)
    (hheals : t.heals.jobs = (s.heals.update j f).jobs) (hr : t.requests = s.requests)
    (hp : t.pass = s.pass)
    (hev : ∀ job, s.heals.jobs[j]? = some job → Evolves t job (f job)) : Owned t := by
  refine h.grow htable (fun k job' hk => .inl ?_) (by simp [hheals, Heals.update])
    (fun r b hb => by simpa only [HealState.Has, hr] using hb)
    (fun r q' j hq hcl => .inl ⟨q', hr ▸ hq, rfl, hcl⟩)
    fun id hid => .inl (by simpa only [HealState.acting, hp] using hid)
  rw [hheals] at hk
  obtain ⟨job, hjob, rfl⟩ := Heals.update_jobs hk
  refine ⟨job, hjob, ?_⟩
  split
  · rename_i hjk
    exact hev job (hjk ▸ hjob)
  · exact .refl t job

end Steps

/-! ## Machines -/

section Machines

variable {cfg : Whitelist} {s : HealState} {id : ℕ} {out : Outcome} {f : Container → Container}

def HealState.books (s : HealState) : Heals × List Request × Option Pass :=
  (s.heals, s.requests, s.pass)

@[simp] theorem HealState.docker_books : (s.docker id out f).books = s.books := by
  unfold HealState.docker
  split <;> rfl

@[simp] theorem HealState.start_books : (s.start id out).books = s.books := docker_books

@[simp] theorem HealState.stop_books : (s.stop id out).books = s.books := docker_books

@[simp] theorem HealState.networkDisconnect_books :
    (s.networkDisconnect id out).books = s.books := docker_books

@[simp] theorem HealState.connectNetwork_books : (s.connectNetwork cfg id out).books = s.books := by
  unfold HealState.connectNetwork
  split
  · exact docker_books
  · rfl

@[simp] theorem HealState.runHeal_books {inspect start connect : Outcome} {kind : HealKind} :
    (s.runHeal cfg id inspect start connect kind).books = s.books := by
  unfold HealState.runHeal
  split
  · split
    · rfl
    split <;> simp
  · simp

end Machines

/-! ## Steps -/

def Heals.busyFor (h : Heals) (id : ℕ) : Bool :=
  h.jobs.any fun job => job.id == id && (job.phase == .checked || job.phase == .healed)

/-- No callback of the node is under way when a heal is scheduled, the reconciler is not about to
act on the node when its outage begins, and a request that has failed finds no other job than its
own. -/
def Request.clear (s : HealState) (q : Request) (out : Outcome) : Bool :=
  match q.stage with
  | .cancelled => q.op != .kill || !s.heals.busyFor q.id
  | .inspected _ => q.op != .partition || !s.heals.busyFor q.id
  | .scheduled _ => out != .ok || s.acting != some q.id
  | .failed j => s.heals.entry q.id == none || s.heals.entry q.id == some j
  | .started _ | .done _ => true

def HealAction.Spaced (s : HealState) : HealAction → Prop
  | .proceed r out => ∀ q ∈ s.requests[r]?, q.clear s out = true
  | _ => True

section Requests

variable {cfg : Whitelist} {s t : HealState} {r : ℕ} {q : Request} {stage : Stage} {out : Outcome}

theorem HealState.setRequest_get {r' : ℕ} {q' : Request}
    (h : (s.setRequest r q stage).requests[r']? = some q') :
    r' = r ∧ q' = { q with stage := stage } ∨ r' ≠ r ∧ s.requests[r']? = some q' := by
  simp only [HealState.setRequest, List.getElem?_set] at h
  split at h
  · rename_i hrr
    split at h
    · exact .inl ⟨hrr.symm, (Option.some.inj h).symm⟩
    · cases h
  · rename_i hrr
    exact .inr ⟨fun hrr' => hrr hrr'.symm, h⟩

theorem HealState.setRequest_self (hq : s.requests[r]? = some q) :
    (s.setRequest r q stage).Has r stage := by
  have hlt := (List.getElem?_eq_some_iff.mp hq).1
  exact ⟨{ q with stage := stage }, by simp [HealState.setRequest, hlt], rfl⟩

/-- Who is done stays done. -/
theorem HealState.setRequest_done {s' : HealState} (hs : s'.requests = s.requests)
    (hq : s.requests[r]? = some q) (hst : ∀ b, q.stage ≠ .done b) {r' : ℕ} {b : Bool}
    (h : s.Has r' (.done b)) : (s'.setRequest r q stage).Has r' (.done b) := by
  obtain ⟨q', hq', hb⟩ := h
  have hrr : r ≠ r' := by
    rintro rfl
    obtain rfl := Option.mem_unique hq hq'
    exact hst b hb
  exact ⟨q', by simpa [HealState.setRequest, hs, hrr] using hq', hb⟩

/-- Requests that have not moved claim what they claimed. -/
theorem HealState.setRequest_claims {s' : HealState} (hs : s'.requests = s.requests) {r' j : ℕ}
    {q' : Request} (h : (s'.setRequest r q stage).requests[r']? = some q') (hcl : q'.Claims j) :
    (∃ q₀, s.requests[r']? = some q₀ ∧ q₀.id = q'.id ∧ q₀.Claims j) ∨
      r' = r ∧ q'.id = q.id ∧ (stage = .scheduled j ∨ stage = .failed j) := by
  rcases setRequest_get h with ⟨hrr, rfl⟩ | ⟨-, hq'⟩
  · exact .inr ⟨hrr, rfl, hcl⟩
  · exact .inl ⟨q', hs ▸ hq', rfl, hcl⟩

/-- A request moves on, and machines may have changed. -/
theorem Owned.moves {s' : HealState} (h : Owned s) (hb : s'.books = s.books)
    (hq : s.requests[r]? = some q) (hst : ∀ b, q.stage ≠ .done b)
    (hcl : ∀ j, stage = .scheduled j ∨ stage = .failed j → q.Claims j) :
    Owned (s'.setRequest r q stage) := by
  simp only [HealState.books, Prod.mk.injEq] at hb
  obtain ⟨hh, hr, hp⟩ := hb
  have hheals : (s'.setRequest r q stage).heals = s.heals := hh
  refine h.grow (hheals ▸ h.table) (fun k job' hk => .inl ⟨job', hheals ▸ hk, .refl _ job'⟩)
    (by rw [hheals]) (fun r' b hb => s.setRequest_done hr hq hst hb)
    (fun r' q' j hq' hc => ?_) fun id hid => .inl ?_
  · rcases s.setRequest_claims hr hq' hc with hold | ⟨rfl, hid, hc'⟩
    · exact .inl hold
    · exact .inl ⟨q, hq, hid.symm, hcl j hc'⟩
  · simpa only [HealState.acting, HealState.setRequest, hp] using hid

theorem Heals.length_cancelHeal (h : Heals) (id : ℕ) (later : Bool) :
    (h.cancelHeal id later).jobs.length = h.jobs.length := by
  unfold Heals.cancelHeal
  split <;> simp [Heals.drop, Heals.update]

theorem Heals.not_busyFor {h : Heals} {id j : ℕ} {job : HealJob} (hb : h.busyFor id = false)
    (hj : h.jobs[j]? = some job) (hid : job.id = id) : ¬ job.Busy := by
  intro hbusy
  have : h.busyFor id = true := by
    refine List.any_eq_true.mpr ⟨job, List.mem_of_getElem? hj, ?_⟩
    rcases hbusy with hp | hp <;> simp [hid, hp]
  rw [this] at hb
  cases hb

theorem Owned.schedule (h : Owned s) (hq : s.requests[r]? = some q) (hst : ∀ b, q.stage ≠ .done b)
    (hfree : s.heals.busyFor q.id = false) (kind : HealKind) : Owned (s.schedule r q kind) := by
  have hjobs : (s.schedule r q kind).heals.jobs =
      (s.heals.cancelHeal q.id true).jobs ++ [{ id := q.id, kind := kind, owner := r }] := rfl
  have hlen := s.heals.length_cancelHeal q.id true
  refine h.grow
    (h.table.scheduleHeal q.id kind r fun j job hj hid => Heals.not_busyFor hfree hj hid)
    (fun k job' hk => ?_) ?_ (fun r' b hb => HealState.setRequest_done rfl hq hst hb)
    (fun r' q' j hq' hc => ?_) fun id hid => .inl hid
  · rw [hjobs, List.getElem?_append] at hk
    split at hk
    · obtain ⟨job, hjob, rfl | ⟨-, rfl⟩⟩ := Heals.cancelHeal_jobs hk
      · exact .inl ⟨job', hjob, .refl _ job'⟩
      · refine .inl ⟨job, hjob, rfl, rfl, fun _ => rfl, fun _ => ?_, fun _ => ?_, fun _ => ?_, .inl⟩
        · simp
        · exact .inr (.inl rfl)
        · simp
    · rename_i hle
      rw [List.getElem?_singleton] at hk
      split at hk
      · obtain rfl := Option.some.inj hk
        exact .inr ⟨by omega, rfl, rfl, rfl⟩
      · cases hk
  · rw [hjobs, List.length_append]
    omega
  · rcases HealState.setRequest_claims (s := s) rfl hq' hc with hold | ⟨rfl, hid, hc'⟩
    · exact .inl hold
    · refine .inr ⟨{ id := q.id, kind := kind, owner := r' }, ?_, rfl, hid.symm⟩
      have hj : j = (s.heals.cancelHeal q.id true).jobs.length := by
        simpa [Heals.scheduleHeal, eq_comm] using hc'
      rw [hjobs, hj]
      simp

theorem Owned.strike {j : ℕ} (h : Owned s) (hq : s.requests[r]? = some q)
    (hst : q.stage = .scheduled j) (hclear : out = .ok → s.acting ≠ some q.id) :
    Owned (s.strike r q j out) := by
  have hnd : ∀ b, q.stage ≠ .done b := by simp [hst]
  set s' := if q.op = .kill then s.stop q.id out else s.networkDisconnect q.id out with hs'
  have hb : s'.books = s.books := by
    rw [hs']
    split <;> simp
  have hstrike : s.strike r q j out = if out = .ok then
      { s' with heals := s'.heals.update j fun job => { job with down := true } }.setRequest r q
        (.done true) else s'.setRequest r q (.failed j) := rfl
  rw [hstrike]
  split
  · rename_i hout
    obtain ⟨job₀, hjob₀, hown, hid⟩ := h.claim r q j hq (.inl hst)
    simp only [HealState.books, Prod.mk.injEq] at hb
    obtain ⟨hh, hr, hp⟩ := hb
    set t := { s' with heals := s'.heals.update j fun job => { job with down := true } }.setRequest
      r q (.done true) with ht
    have hheals : t.heals = s.heals.update j fun job => { job with down := true } := by
      rw [ht, ← hh]
      rfl
    have hact : t.acting = s.acting := by
      simp only [ht, HealState.acting, HealState.setRequest, hp]
    have hself : t.Has r (.done true) := HealState.setRequest_self (by simpa [hr] using hq)
    refine h.grow ?_ (fun k job' hk => .inl ?_) (by simp [hheals, Heals.update])
      (fun r' b hb => HealState.setRequest_done hr hq hnd hb) (fun r' q' l hq' hc => ?_)
      fun id hid => .inl (hact ▸ hid)
    · rw [hheals]
      exact h.table.update hjob₀ rfl rfl .inl (fun hp => hp) .inl
    · rw [hheals] at hk
      obtain ⟨job, hjob, rfl⟩ := Heals.update_jobs hk
      refine ⟨job, hjob, ?_⟩
      split
      · rename_i hjk
        subst hjk
        obtain rfl := Option.mem_unique hjob₀ hjob
        refine ⟨rfl, rfl, fun hx => hx, fun hx => hx, .inl, .inl, fun _ => .inr ⟨hown ▸ hself, ?_⟩⟩
        rw [hact, hid]
        exact hclear hout
      · exact .refl t job
    · rcases HealState.setRequest_claims (s := s) hr hq' hc with hold | ⟨-, -, hc'⟩
      · exact .inl hold
      · simp at hc'
  · exact h.moves hb hq hnd fun k hk => by simpa [Request.Claims, hst, eq_comm] using hk

/-- The end of a failed request: it cancels no job but its own. -/
theorem Owned.gives_up {j : ℕ} (h : Owned s) (hq : s.requests[r]? = some q)
    (hst : q.stage = .failed j) (hclear : ∀ k, s.heals.entry q.id = some k → k = j) :
    Owned ({ s with heals := s.heals.cancelHeal q.id false }.setRequest r q (.done false)) := by
  have hnd : ∀ b, q.stage ≠ .done b := by simp [hst]
  obtain ⟨job₀, hjob₀, hown, -⟩ := h.claim r q j hq (.inr hst)
  set t := { s with heals := s.heals.cancelHeal q.id false }.setRequest r q (.done false) with ht
  have hself : t.Has r (.done false) := HealState.setRequest_self hq
  refine h.grow (h.table.cancelHeal q.id false) (fun k job' hk => .inl ?_)
    (s.heals.length_cancelHeal q.id false).ge
    (fun r' b hb => HealState.setRequest_done rfl hq hnd hb) (fun r' q' l hq' hc => ?_)
    fun id hid => .inl hid
  · obtain ⟨job, hjob, rfl | ⟨hentry, rfl⟩⟩ := Heals.cancelHeal_jobs hk
    · exact ⟨job', hjob, .refl t job'⟩
    · obtain rfl := hclear k hentry
      obtain rfl := Option.mem_unique hjob₀ hjob
      exact ⟨job₀, hjob, rfl, rfl, fun _ => rfl, fun hx => by simp [hx], .inl,
        fun _ => .inr (.inr (hown ▸ hself)), .inl⟩
  · rcases HealState.setRequest_claims (s := s) rfl hq' hc with hold | ⟨-, -, hc'⟩
    · exact .inl hold
    · simp at hc'

theorem Owned.proceed (h : Owned s) (hq : s.requests[r]? = some q) (hclear : q.clear s out = true)
    (hs : s.proceed cfg r q out = some t) : Owned t := by
  have hplain : ∀ {s' : HealState} {stage : Stage}, s'.books = s.books → (∀ b, q.stage ≠ .done b) →
      (∀ j, ¬ (stage = .scheduled j ∨ stage = .failed j)) → Owned (s'.setRequest r q stage) :=
    fun hb hnd hno => h.moves hb hq hnd fun j hj => absurd hj (hno j)
  unfold HealState.proceed at hs
  split at hs
  · rename_i hst
    have hnd : ∀ b, q.stage ≠ .done b := by simp [hst]
    split at hs
    · rename_i hop
      obtain rfl := Option.some.inj hs
      exact h.schedule hq hnd (by simpa [Request.clear, hst, hop] using hclear) _
    split at hs
    · obtain rfl := Option.some.inj hs
      exact hplain rfl hnd (by simp)
    simp only at hs
    split at hs <;> obtain rfl := Option.some.inj hs <;> exact hplain rfl hnd (by simp)
  · rename_i c hst
    have hnd : ∀ b, q.stage ≠ .done b := by simp [hst]
    split at hs
    · rename_i hop
      obtain rfl := Option.some.inj hs
      exact h.schedule hq hnd (by simpa [Request.clear, hst, hop] using hclear) _
    split at hs
    · obtain rfl := Option.some.inj hs
      exact hplain rfl hnd (by simp)
    split at hs <;> obtain rfl := Option.some.inj hs <;>
      exact hplain HealState.start_books hnd (by simp)
  · rename_i c hst
    have hnd : ∀ b, q.stage ≠ .done b := by simp [hst]
    obtain rfl := Option.some.inj hs
    refine hplain ?_ hnd (by simp)
    split
    · exact HealState.connectNetwork_books
    · rfl
  · rename_i j hst
    obtain rfl := Option.some.inj hs
    exact h.strike hq hst fun hout => by simpa [Request.clear, hst, hout] using hclear
  · rename_i j hst
    obtain rfl := Option.some.inj hs
    refine h.gives_up hq hst fun k hk => ?_
    simpa [Request.clear, hst, hk] using hclear
  · cases hs

end Requests

section Runs

variable {cfg : Whitelist} {s t : HealState} {a : HealAction}

theorem HealState.books_inj {s t : HealState} (h : t.books = s.books) :
    t.heals = s.heals ∧ t.requests = s.requests ∧ t.pass = s.pass := by
  simpa only [HealState.books, Prod.mk.injEq] using h

/-- The reconciler looks at the table right before it sets out to act. -/
theorem Owned.reconcile {pass : Pass} {out : Outcome} (h : Owned s) (hp : s.pass = some pass) :
    Owned (s.reconcileOnce cfg pass out) := by
  have hset : ∀ {s' : HealState} {pass' : Pass}, s'.books = s.books →
      (∀ id, pass'.acting = some id → pass.acting = some id ∨ s.heals.entry id = none) →
      Owned (s'.setPass pass') := by
    intro s' pass' hb hact
    obtain ⟨hh, hr, -⟩ := HealState.books_inj hb
    exact h.same hh hr fun id hid => by simpa [HealState.acting, hp] using hact id hid
  have hnext : ∀ {s' : HealState} {rest : List ℕ}, s'.books = s.books →
      Owned (s'.next pass rest) := by
    intro s' rest hb
    refine hset hb fun id hid => ?_
    cases rest <;> cases hid
  unfold HealState.reconcileOnce
  split
  · exact h.same rfl rfl fun id hid => by cases hid
  rename_i id rest htodo
  have hcare : ∀ {care : Care} {id' : ℕ}, ({ pass with care := care } : Pass).acting = some id' →
      (care = .start ∨ care = .join) ∧ id' = id := by
    intro care id' hid
    obtain ⟨hstep, hhead⟩ := Pass.acting_eq hid
    exact ⟨hstep, Option.some.inj (hhead.symm.trans (congrArg List.head? htodo))⟩
  split
  · split
    · exact hnext rfl
    split
    · exact hnext rfl
    split
    · exact hnext rfl
    · exact hset rfl fun id' hid => by simpa using (hcare hid).1
  · split
    · exact hset rfl fun id' hid => by simpa using (hcare hid).1
    · exact hnext rfl
  · split
    · exact hnext rfl
    rename_i hnone
    have hnone : s.heals.entry id = none := by simpa using hnone
    split
    · exact hset rfl fun id' hid => .inr ((hcare hid).2 ▸ hnone)
    split
    · exact hset rfl fun id' hid => .inr ((hcare hid).2 ▸ hnone)
    · exact hnext rfl
  · rename_i hst
    split
    · exact hset HealState.start_books fun id' hid =>
        .inl (by simp [Pass.acting, htodo, hst, (hcare hid).2])
    · exact hnext HealState.start_books
  · exact hnext HealState.connectNetwork_books

theorem Owned.request (h : Owned s) (op : Op) (id : ℕ) :
    Owned { s with
      heals := s.heals.cancelHeal id true
      requests := s.requests ++ [⟨op, id, .cancelled⟩] } := by
  refine h.grow (h.table.cancelHeal id true) (fun k job' hk => .inl ?_)
    (s.heals.length_cancelHeal id true).ge (fun r b hb => ?_) (fun r q' j hq hcl => ?_)
    fun id hid => .inl hid
  · obtain ⟨job, hjob, rfl | ⟨-, rfl⟩⟩ := Heals.cancelHeal_jobs hk
    · exact ⟨job', hjob, .refl _ job'⟩
    · exact ⟨job, hjob, rfl, rfl, fun _ => rfl, fun _ => by simp, .inl,
        fun _ => .inr (.inl (by simp)), .inl⟩
  · obtain ⟨q, hq, hst⟩ := hb
    have hlt := (List.getElem?_eq_some_iff.mp hq).1
    exact ⟨q, (List.getElem?_append_left hlt).trans hq, hst⟩
  · simp only [List.getElem?_append, List.getElem?_singleton] at hq
    split at hq
    · exact .inl ⟨q', hq, rfl, hcl⟩
    · split at hq
      · obtain rfl := Option.some.inj hq
        simp [Request.Claims] at hcl
      · cases hq

theorem Owned.fire {j : ℕ} {job : HealJob} (h : Owned s) (hj : s.heals.jobs[j]? = some job)
    (hw : job.phase = .waiting) :
    Owned { s with heals :=
      s.heals.update j ({ · with phase := if job.cancelled then .finished else .checked }) } := by
  refine h.update (j := j) (h.table.update hj rfl rfl ?_ ?_ ?_) rfl rfl rfl fun job' hj' => ?_
  · intro hp
    by_cases hc : job.cancelled = true
    · exact .inr hc
    · simp [hc] at hp
  · intro hp
    rw [hw] at hp
    cases hp
  · intro hb
    by_cases hc : job.cancelled = true
    · simp [HealJob.Busy, hc] at hb
    · exact .inr ⟨by simpa using hc, by simp [hw]⟩
  · obtain rfl := Option.mem_unique hj hj'
    refine ⟨rfl, rfl, fun h => h, fun h => h, fun hp => ?_, .inl, .inl⟩
    by_cases hc : job.cancelled = true
    · exact .inr (.inl hc)
    · simp [hc] at hp

theorem Owned.heal {j : ℕ} {job : HealJob} {s' : HealState} (h : Owned s)
    (hb : s'.books = s.books) (hj : s.heals.jobs[j]? = some job) (hc : job.phase = .checked) :
    Owned { s' with heals := s'.heals.update j ({ · with phase := .healed }) } := by
  obtain ⟨hh, hr, hp⟩ := HealState.books_inj hb
  rw [hh]
  refine h.update (j := j) (h.table.update hj rfl rfl ?_ ?_ fun _ => .inl (.inl hc)) rfl hr hp
    fun job' hj' => ⟨rfl, rfl, fun h => h, fun h => h, ?_, .inl, .inl⟩
  · intro hp
    cases hp
  · intro hp
    rw [hc] at hp
    cases hp
  · intro hp
    cases hp

/-- The callback that deletes the entry of the node is the registered job's, if there is one. -/
theorem Owned.delete {j : ℕ} {job : HealJob} (h : Owned s) (hj : s.heals.jobs[j]? = some job)
    (hp : job.phase = .healed) :
    Owned { s with heals :=
      (s.heals.update j ({ · with phase := .finished, ended := true })).drop job.id } :=
  h.update (j := j)
    (h.table.drop hj rfl (.inr rfl) fun k hk => h.table.busy j job k hj (.inr hp) hk) rfl rfl rfl
    fun _ _ => ⟨rfl, rfl, fun h => h, fun _ => rfl, fun _ => .inr (.inr rfl), .inl, .inl⟩

theorem Owned.step (h : Owned s) (ha : a.Spaced s) (hs : healStep cfg s a = some t) : Owned t := by
  cases a with
  | request op id =>
    simp only [healStep] at hs
    split at hs
    · obtain rfl := Option.some.inj hs
      exact h.request op id
    · cases hs
  | proceed r out =>
    obtain ⟨q, hq, hs⟩ := Option.bind_eq_some_iff.mp hs
    exact h.proceed hq (ha q hq) hs
  | fire j =>
    obtain ⟨job, hj, hs⟩ := Option.bind_eq_some_iff.mp hs
    split at hs
    · obtain rfl := Option.some.inj hs
      exact h.fire hj ‹_›
    · cases hs
  | heal j inspect start connect =>
    obtain ⟨job, hj, hs⟩ := Option.bind_eq_some_iff.mp hs
    split at hs
    · obtain rfl := Option.some.inj hs
      exact h.heal HealState.runHeal_books hj ‹_›
    · cases hs
  | delete j =>
    obtain ⟨job, hj, hs⟩ := Option.bind_eq_some_iff.mp hs
    split at hs
    · obtain rfl := Option.some.inj hs
      exact h.delete hj ‹_›
    · cases hs
  | tick known =>
    simp only [healStep] at hs
    split at hs
    · obtain rfl := Option.some.inj hs
      refine h.same rfl rfl fun id hid => ?_
      generalize cfg.nodes = todo at hid
      cases todo <;> cases hid
    · cases hs
  | reconcile out =>
    obtain ⟨pass, hp, rfl⟩ := Option.map_eq_some_iff.mp hs
    exact h.reconcile hp
  | drift id c =>
    obtain rfl := Option.some.inj hs
    exact h.same rfl rfl fun id hid => .inl hid

theorem owned (h : Reaches (healStep cfg) HealAction.Spaced {} s) : Owned s :=
  h.invariant (fun _ _ _ hs ha ht => hs.step ha ht) owned_init

theorem HealState.docker_containers {id id' : ℕ} {out : Outcome} {f : Container → Container}
    (hne : id' ≠ id) : (s.docker id out f).containers id' = s.containers id' := by
  unfold HealState.docker
  split
  · rfl
  · exact Function.update_of_ne hne _ _

theorem HealState.connectNetwork_containers {id id' : ℕ} {out : Outcome} (hne : id' ≠ id) :
    (s.connectNetwork cfg id out).containers id' = s.containers id' := by
  unfold HealState.connectNetwork
  split
  · exact docker_containers hne
  · rfl

/-- The reconciler touches no machine but the one it is about to act on. -/
theorem HealState.reconcileOnce_containers {pass : Pass} {out : Outcome} {id : ℕ}
    (hid : pass.acting ≠ some id) :
    (s.reconcileOnce cfg pass out).containers id = s.containers id := by
  unfold HealState.reconcileOnce
  split
  · rfl
  rename_i id' rest htodo
  split
  · split
    · rfl
    split
    · rfl
    split <;> rfl
  · split <;> rfl
  · split
    · rfl
    split
    · rfl
    split <;> rfl
  · rename_i hst
    have hne : id ≠ id' := by
      rintro rfl
      simp [Pass.acting, htodo, hst] at hid
    split <;> exact docker_containers hne
  · rename_i hst
    have hne : id ≠ id' := by
      rintro rfl
      simp [Pass.acting, htodo, hst] at hid
    exact connectNetwork_containers hne

end Runs

instance (s : HealState) : ∀ a : HealAction, Decidable (a.Spaced s)
  | .proceed r out => inferInstanceAs (Decidable (∀ q ∈ s.requests[r]?, q.clear s out = true))
  | .request _ _ | .fire _ | .heal _ _ _ _ | .delete _ | .tick _ | .reconcile _ | .drift _ _ =>
    .isTrue trivial

/-- From the success of a kill or partition until its job has fired or a later action has cancelled
it, the job is the registered one and the reconciler leaves the machine alone; and a callback
deletes no entry but its own. -/
theorem outage_owned {cfg : Whitelist} {s : HealState}
    (h : Reaches (healStep cfg) HealAction.Spaced {} s) :
    (∀ (j : ℕ) (job : HealJob), s.heals.jobs[j]? = some job → job.down = true →
      job.ended = false → s.heals.entry job.id = some j ∧
        ∀ out t, healStep cfg s (.reconcile out) = some t →
          t.containers job.id = s.containers job.id) ∧
    ∀ (j k : ℕ) (job : HealJob) t, s.heals.jobs[j]? = some job →
      healStep cfg s (.delete j) = some t → s.heals.entry job.id = some k → k = j := by
  have ho := owned h
  refine ⟨fun j job hj hd he => ⟨ho.registered hj hd he, fun out t ht => ?_⟩,
    fun j k job t hj ht hk => ?_⟩
  · obtain ⟨pass, hp, rfl⟩ := Option.map_eq_some_iff.mp ht
    refine HealState.reconcileOnce_containers fun hact => ?_
    have := ho.act job.id (by simpa [HealState.acting, hp] using hact) j job hj rfl hd
    rw [this] at he
    cases he
  · obtain ⟨job', hj', ht⟩ := Option.bind_eq_some_iff.mp ht
    obtain rfl := Option.mem_unique hj hj'
    split at ht
    · rename_i hp
      exact ho.table.busy j job k hj (.inr hp) hk
    · cases ht

/-- A kill, and a pass of the reconciler that finds the machine down. -/
theorem outage_owned_kill : ∃ s, Reaches (healStep ⟨[1], true⟩) HealAction.Spaced {} s ∧
    (s.containers 1).running = false ∧ s.heals.entry 1 = some 0 := by
  have hs := Reaches.of_exec (healStep ⟨[1], true⟩) HealAction.Spaced {}
    [.request .kill 1, .proceed 0 .ok, .proceed 0 .ok, .tick [1], .reconcile .ok] (by decide) rfl
  exact ⟨_, hs, rfl, ((outage_owned hs).1 0 _ rfl rfl rfl).1⟩

/-- The callback of the first kill's job deletes the entry of the second kill's, and the reconciler
starts the machine. -/
theorem outage_not_owned : ∃ s t, Reaches (healStep ⟨[1], true⟩) (fun _ _ => True) {} s ∧
    Reaches (healStep ⟨[1], true⟩) (fun _ _ => True) s t ∧
    s.heals.jobs[1]? = some ⟨1, .start, 1, false, .waiting, true, false⟩ ∧
    (s.containers 1).running = false ∧ s.heals.entry 1 = none ∧
    t.heals = s.heals ∧ (t.containers 1).running = true := by
  have hs := Reaches.of_exec (healStep ⟨[1], true⟩) (fun _ _ => True) {}
    [.request .kill 1, .proceed 0 .ok, .proceed 0 .ok, .fire 0, .heal 0 .ok .ok .ok,
      .request .kill 1, .proceed 1 .ok, .proceed 1 .ok, .delete 0]
    (.of_forall (fun _ _ _ => trivial) _) rfl
  refine ⟨_, _, hs, Reaches.of_exec _ _ _
    [.tick [1], .reconcile .ok, .reconcile .ok, .reconcile .ok, .reconcile .ok]
    (.of_forall (fun _ _ _ => trivial) _) rfl, rfl, rfl, rfl, rfl, rfl⟩

end KMC.ControlPlane
