import KillMyCluster.Durable.Bytes
import KillMyCluster.Durable.Memory

/-! A cluster whose servers have files instead of records. A process may die in any file operation
of a persister call, with any number of bytes of a write done, or while it opens its files. Read as
records, every such run is a run of the cluster with a reliable disk, provided that no entry takes
4 GiB; so what is recovered is the memory that the files were written for. -/

namespace KMC

open Files Storage Trace

/-! ## Files read as records -/

def collectRecord (pb : Proto) (rs : List Rec) (payload : Bytes) : Except String (List Rec) :=
  (Rec.decode pb payload).map fun r => rs ++ [r]

/-- The image and the records that the files hold, as far as they can be read. -/
def diskOf (pb : Proto) (dir : RaftDir) : Disk where
  snap := (dir .snapshot).bind fun raw => (Snapshot.decode raw).toOption
  wal := (replayWAL (dir .wal) (collectRecord pb) []).2.toOption.getD []

variable {pb : Proto} {dir : RaftDir} {d : Disk} {tail : Bytes} {c : Call} {e : Effect} {v : State}

theorem collect_payloads {rs : List Rec} (h : ∀ r ∈ rs, r.Fits pb) (acc : List Rec) :
    (rs.map (Rec.encode pb)).foldlM (collectRecord pb) acc = .ok (acc ++ rs) := by
  induction rs generalizing acc with
  | nil => simp [pure, Except.pure]
  | cons r rs ih =>
    rw [List.map_cons, List.foldlM_cons, collectRecord,
      Rec.decode_encode (h r List.mem_cons_self)]
    have := ih (fun x hx => h x (List.mem_cons_of_mem r hx)) (acc ++ [r])
    rwa [List.append_assoc] at this

theorem Encodes.diskOf (h : Encodes pb dir d tail) : diskOf pb dir = d := by
  have hwal := replayWAL_frames (Rec.payloads_fit h.fits) h.torn h.wal (collect_payloads h.fits [])
  have hsnap : (dir .snapshot).bind (fun raw => (Snapshot.decode raw).toOption) = d.snap := by
    rw [h.image]
    cases hs : d.snap with
    | none => rfl
    | some snap =>
      rw [Option.map_some, Option.bind_some, Snapshot.decode_encode (h.image_fits snap hs)]
      rfl
  rw [KMC.diskOf, hwal, hsnap]
  rfl

/-! ## The cluster -/

/-- A cluster and the files of its servers; the disks in `cluster` are not used. -/
structure FileState where
  cluster : State
  dirs : ℕ → RaftDir

namespace FileState

/-- The cluster with the disks that the files stand for. -/
def view (pb : Proto) (s : FileState) : State where
  servers p := { s.cluster.servers p with disk := diskOf pb (s.dirs p) }
  rpcs := s.cluster.rpcs

end FileState

def Config.initFiles (cfg : Config) : FileState := ⟨cfg.init, fun _ _ => none⟩

def Action.withIo (io : Io) : Action → Action
  | .tick p _ => .tick p io
  | .deliver k recent _ => .deliver k recent io
  | .respond k j _ => .respond k j io
  | .propose p batch _ => .propose p batch io
  | .snapshot p index data _ => .snapshot p index data io
  | a => a

inductive FileAction
  /-- A step that is not cut short. -/
  | act (a : Action)
  /-- The process dies in the `k`th call of its section. -/
  | die (a : Action) (k : ℕ) (pt : CrashPoint)
  /-- The process dies in `openPersister`. -/
  | dieOpening (p : ℕ) (pt : CrashPoint)

def cutAt (pb : Proto) (dir : RaftDir) (calls : List Call) (k : ℕ) (c : Call) (pt : CrashPoint) :
    RaftDir :=
  crashed (runs dir ((calls.take k).flatMap (Call.ops pb))) (c.ops pb) pt

def Server.started (n : Node) (d : Disk) (epoch : ℕ) : Server :=
  { proc := some n, disk := d, epoch := epoch + 1 }

def fileStep (cfg : Config) (pb : Proto) (s : FileState) : FileAction → Option FileState
  | .act (.restart p) =>
    if p ∈ cfg.ids ∧ (s.cluster.node p).isNone then
      match openPersisterAt pb (s.dirs p) with
      | .error _ => none
      | .ok (st, ops) =>
        some ⟨s.cluster.setServer p
            (.started (newNode p (cfg.peers p) (cfg.retain p) st) {} (s.cluster.servers p).epoch),
          Function.update s.dirs p (runs (s.dirs p) ops)⟩
    else none
  | .act a => do
    let t ← step cfg (s.view pb) (a.withIo {})
    match (a.withIo {}).effect (s.view pb) with
    | none => return ⟨t, s.dirs⟩
    | some (p, e) =>
      return ⟨t, Function.update s.dirs p (runs (s.dirs p) (e.calls.flatMap (Call.ops pb)))⟩
  | .die a k pt => do
    let t ← step cfg (s.view pb) (a.withIo { crash := some (k, 0) })
    let (p, e) ← (a.withIo {}).effect (s.view pb)
    let c ← e.calls[k]?
    return ⟨t, Function.update s.dirs p (cutAt pb (s.dirs p) e.calls k c pt)⟩
  | .dieOpening p pt =>
    if p ∈ cfg.ids ∧ (s.cluster.node p).isNone then
      match openPersisterAt pb (s.dirs p) with
      | .error _ => none
      | .ok (_, ops) => some ⟨s.cluster, Function.update s.dirs p (crashed (s.dirs p) ops pt)⟩
    else none

/-! ## What may be proposed -/

def LogEntry.Short (pb : Proto) (x : LogEntry) : Prop :=
  x.index < 2 ^ 64 → x.term < 2 ^ 64 → (pb.marshal x).length + 1 < 2 ^ 32

def Rec.Words : Rec → Prop
  | .hardState term votedFor => term < 2 ^ 64 ∧ votedFor < 2 ^ 64
  | .entry e => e.index < 2 ^ 64 ∧ e.term < 2 ^ 64
  | .truncate start => start < 2 ^ 64

def Call.Words (c : Call) : Prop :=
  (∀ r ∈ c.records, r.Words) ∧ ∀ snap t v keep, c = .saveSnapshot snap t v keep → snap.Fits

/-- What is proposed is short, whatever index and term it gets; and the numbers in the calls are of
their type. -/
def Action.Small (pb : Proto) (s : FileState) (a : Action) : Prop :=
  a.Makes (LogEntry.Short pb) ∧
    ∀ p e, (a.withIo {}).effect (s.view pb) = some (p, e) → ∀ c ∈ e.calls, c.Words

def FileAction.Small (pb : Proto) (s : FileState) : FileAction → Prop
  | .act a | .die a _ _ => a.Small pb s
  | .dieOpening .. => True

theorem Call.Words.fits (h : c.Words) (hc : c.Carries (LogEntry.Short pb)) : c.Fits pb := by
  refine ⟨fun r hr => ?_, h.2⟩
  have hw := h.1 r hr
  cases r with
  | hardState term votedFor => exact hw
  | entry x => exact ⟨hw.1, hw.2, hc x hr hw.1 hw.2⟩
  | truncate start => exact hw

/-! ## The same step with another disk -/

section Disks

variable {cfg : Config} {s t u : State} {a : Action} {p k : ℕ}

structure State.Alike (s t : State) : Prop where
  rpcs : t.rpcs = s.rpcs
  servers : ∀ q, t.servers q = { s.servers q with disk := (t.servers q).disk }

theorem Action.withIo_reliable (crash : Option (ℕ × ℕ)) :
    (a.withIo { crash := crash }).Reliable := by
  cases a <;> rfl

theorem Action.withIo_makes {Q : LogEntry → Prop} (io : Io) :
    (a.withIo io).Makes Q ↔ a.Makes Q := by
  cases a <;> rfl

theorem Action.withIo_effect (s : State) (crash : Option (ℕ × ℕ)) :
    (a.withIo { crash := crash }).effect s = (a.withIo {}).effect s := by
  cases a <;> rfl

theorem State.finish_alike (s : State) (p k r : ℕ) (e : Effect) :
    (s.finish p { crash := some (k, 0) } e).Alike (s.finish p { crash := some (k, r) } e) where
  rpcs := rfl
  servers q := by
    by_cases hq : q = p
    · subst hq
      simp [finish, setServer, Server.die]
    · simp [finish, setServer, hq]

theorem State.local_alike {f : Node → Option Effect}
    (h : s.local p { crash := some (k, 0) } f = some t) (r : ℕ) :
    ∃ u, s.local p { crash := some (k, r) } f = some u ∧ t.Alike u := by
  obtain ⟨n, e, hn, he, rfl⟩ := State.local_some h
  exact ⟨_, by simp [State.local, hn, he], s.finish_alike p k r e⟩

/-- Only actions with a disk make calls. -/
theorem Action.withIo_io (he : (a.withIo {}).effect s = some (p, e)) (hc : e.calls ≠ []) (io : Io) :
    (a.withIo io).io = io := by
  cases a with
  | tick | deliver | respond | propose | snapshot => rfl
  | stepDown q =>
    simp only [Action.withIo, Action.effect, Option.bind_eq_bind, Option.bind_eq_some_iff] at he
    obtain ⟨n, -, e', hres, he⟩ := he
    obtain ⟨rfl, rfl⟩ := Prod.mk.inj (Option.some.inj he)
    obtain ⟨-, rfl⟩ := Node.resign_some hres
    exact absurd rfl hc
  | replicate q q' =>
    simp only [Action.withIo, Action.effect, Option.bind_eq_bind, Option.bind_eq_some_iff] at he
    obtain ⟨n, -, e', hrep, he⟩ := he
    obtain ⟨rfl, rfl⟩ := Prod.mk.inj (Option.some.inj he)
    obtain ⟨-, -, rfl | ⟨snap, -, -, rfl⟩ | ⟨-, rfl⟩⟩ := Node.replicateOnce_cases hrep <;>
      exact absurd rfl hc
  | heartbeat q q' =>
    simp only [Action.withIo, Action.effect, Option.bind_eq_bind, Option.bind_eq_some_iff] at he
    obtain ⟨n, -, e', hbeat, he⟩ := he
    obtain ⟨rfl, rfl⟩ := Prod.mk.inj (Option.some.inj he)
    obtain ⟨-, -, -, rfl⟩ := Node.heartbeatAck_cases hbeat
    exact absurd rfl hc
  | lease q =>
    simp only [Action.withIo, Action.effect, Option.bind_eq_bind, Option.bind_eq_some_iff] at he
    obtain ⟨n, -, he⟩ := he
    obtain ⟨rfl, rfl⟩ := Prod.mk.inj (Option.some.inj he)
    exact absurd rfl hc
  | _ => cases he

/-- How much of the call is written makes no difference but for the disk. -/
theorem step_alike (h : step cfg s (a.withIo { crash := some (k, 0) }) = some t)
    (he : (a.withIo {}).effect s = some (p, e)) (hc : e.calls ≠ []) (r : ℕ) :
    ∃ u, step cfg s (a.withIo { crash := some (k, r) }) = some u ∧ t.Alike u := by
  cases a with
  | tick q io => exact State.local_alike h r
  | propose q batch io => exact State.local_alike h r
  | snapshot q index data io => exact State.local_alike h r
  | deliver j recent io =>
    simp only [Action.withIo, step, Option.bind_eq_bind, Option.bind_eq_some_iff, Option.pure_def,
      Option.some.injEq] at h
    obtain ⟨rpc, hr, n, hn, rfl⟩ := h
    refine ⟨s.finish rpc.dst { crash := some (k, r) } (handle {} recent n rpc.body).1, ?_,
      s.finish_alike rpc.dst k r _⟩
    simp only [Action.withIo, step, hr, hn, Option.bind_eq_bind, Option.bind_some, Option.pure_def]
    rfl
  | respond j i io =>
    simp only [Action.withIo, step, Option.bind_eq_bind, Option.bind_eq_some_iff] at h
    obtain ⟨rpc, hr, resp, hresp, h⟩ := h
    split at h
    · cases h
    rename_i hguard
    obtain ⟨u, hu, halike⟩ := State.local_alike h r
    refine ⟨u, ?_, halike⟩
    simp only [Action.withIo, step, hr, hresp, Option.bind_eq_bind, Option.bind_some, if_neg hguard]
    exact hu
  | _ =>
    -- a section without calls has no call to die in
    exact absurd (congrArg Io.crash (Action.withIo_io he hc { crash := some (k, 0) }))
      (by simp [Action.withIo, Action.io])

end Disks

/-! ## Steps -/

inductive FileMove (cfg : Config) (pb : Proto) (s : FileState) : FileAction → FileState → Prop
  | reopen {p : ℕ} {st : PersistedState} {ops : List (Op RaftFile UInt8)} : p ∈ cfg.ids →
      s.cluster.node p = none → openPersisterAt pb (s.dirs p) = .ok (st, ops) →
      FileMove cfg pb s (.act (.restart p))
        ⟨s.cluster.setServer p
            (.started (newNode p (cfg.peers p) (cfg.retain p) st) {} (s.cluster.servers p).epoch),
          Function.update s.dirs p (runs (s.dirs p) ops)⟩
  | act {a : Action} {t : State} {p : ℕ} {e : Effect} :
      step cfg (s.view pb) (a.withIo {}) = some t →
      (a.withIo {}).effect (s.view pb) = some (p, e) →
      FileMove cfg pb s (.act a)
        ⟨t, Function.update s.dirs p (runs (s.dirs p) (e.calls.flatMap (Call.ops pb)))⟩
  | change {a : Action} {t : State} : (∀ p, a ≠ .restart p) →
      step cfg (s.view pb) (a.withIo {}) = some t → (a.withIo {}).effect (s.view pb) = none →
      FileMove cfg pb s (.act a) ⟨t, s.dirs⟩
  | die {a : Action} {t : State} {p k : ℕ} {e : Effect} {c : Call} {pt : CrashPoint} :
      step cfg (s.view pb) (a.withIo { crash := some (k, 0) }) = some t →
      (a.withIo {}).effect (s.view pb) = some (p, e) → e.calls[k]? = some c →
      FileMove cfg pb s (.die a k pt)
        ⟨t, Function.update s.dirs p (cutAt pb (s.dirs p) e.calls k c pt)⟩
  | dieOpening {p : ℕ} {st : PersistedState} {ops : List (Op RaftFile UInt8)} {pt : CrashPoint} :
      s.cluster.node p = none → openPersisterAt pb (s.dirs p) = .ok (st, ops) →
      FileMove cfg pb s (.dieOpening p pt)
        ⟨s.cluster, Function.update s.dirs p (crashed (s.dirs p) ops pt)⟩

theorem fileStep_act {cfg : Config} {s t : FileState} {a : Action} (ha : ∀ p, a ≠ .restart p)
    (h : fileStep cfg pb s (.act a) = some t) : FileMove cfg pb s (.act a) t := by
  have hstep : (do
      let u ← step cfg (s.view pb) (a.withIo {})
      match (a.withIo {}).effect (s.view pb) with
      | none => return ⟨u, s.dirs⟩
      | some (p, e) =>
        return ⟨u, Function.update s.dirs p (runs (s.dirs p) (e.calls.flatMap (Call.ops pb)))⟩) =
      some t := by
    cases a with
    | restart p => exact absurd rfl (ha p)
    | _ => exact h
  obtain ⟨u, hu, h⟩ := Option.bind_eq_some_iff.mp hstep
  split at h
  · rename_i he
    obtain rfl := Option.some.inj h
    exact .change ha hu he
  · rename_i p e he
    obtain rfl := Option.some.inj h
    exact .act hu he

theorem fileStep_cases {cfg : Config} {s t : FileState} {x : FileAction}
    (h : fileStep cfg pb s x = some t) : FileMove cfg pb s x t := by
  cases x with
  | act a =>
    by_cases ha : ∃ p, a = .restart p
    · obtain ⟨p, rfl⟩ := ha
      simp only [fileStep] at h
      split at h
      · rename_i hp
        split at h
        · cases h
        · rename_i st ops hopen
          obtain rfl := Option.some.inj h
          exact .reopen hp.1 (Option.isNone_iff_eq_none.mp hp.2) hopen
      · cases h
    · exact fileStep_act (fun p hp => ha ⟨p, hp⟩) h
  | die a k pt =>
    simp only [fileStep, Option.bind_eq_bind, Option.bind_eq_some_iff] at h
    obtain ⟨u, hu, ⟨p, e⟩, he, c, hc, h⟩ := h
    obtain rfl := Option.some.inj h
    exact .die hu he hc
  | dieOpening p pt =>
    simp only [fileStep] at h
    split at h
    · rename_i hp
      split at h
      · cases h
      · rename_i st ops hopen
        obtain rfl := Option.some.inj h
        exact .dieOpening (Option.isNone_iff_eq_none.mp hp.2) hopen
    · cases h

/-! ## Refinement -/

/-- The files of every server can be read, those of a running one to their end; and read as records
they are what the memories and the RPCs say. -/
structure Legible (pb : Proto) (s : FileState) : Prop where
  files : ∀ p, ∃ tail, Encodes pb (s.dirs p) (diskOf pb (s.dirs p)) tail ∧
    ((s.cluster.node p).isSome → tail = [])
  remembered : Remembered (s.view pb)
  entered : Entered (LogEntry.Short pb) (s.view pb)

variable {cfg : Config} {s t : FileState} {x : FileAction}

theorem view_alike {u : State} {dirs : ℕ → RaftDir} (h : u.Alike v)
    (hd : ∀ p, diskOf pb (dirs p) = (v.servers p).disk) : FileState.view pb ⟨u, dirs⟩ = v := by
  obtain ⟨servers, rpcs⟩ := v
  have hs : (fun p => { u.servers p with disk := diskOf pb (dirs p) }) = servers := by
    funext p
    rw [hd p]
    exact (h.servers p).symm
  rw [FileState.view, hs, show u.rpcs = rpcs from h.rpcs.symm]

theorem State.Alike.refl (u : State) : u.Alike u := ⟨rfl, fun _ => rfl⟩

theorem legible_init (cfg : Config) : Legible pb cfg.initFiles := by
  have hview : cfg.initFiles.view pb = cfg.init :=
    view_alike (State.Alike.refl _) fun p => encodes_empty.diskOf
  refine ⟨fun p => ⟨[], ?_, fun _ => rfl⟩, ?_, ?_⟩
  · have hempty : Encodes pb (fun _ => none) {} [] := encodes_empty
    exact hempty.diskOf.symm ▸ hempty
  · exact hview ▸ remembered_init cfg
  · exact hview ▸ entered_init cfg

/-- The section of an action whose calls fit. -/
theorem Legible.section (h : Legible pb s) {a : Action} (ha : a.Small pb s) {crash : Option (ℕ × ℕ)}
    {u : State} {p : ℕ} (hs : step cfg (s.view pb) (a.withIo { crash := crash }) = some u)
    (he : (a.withIo {}).effect (s.view pb) = some (p, e)) : ∃ n io, (s.view pb).node p = some n ∧
      Section cfg (s.view pb) n (a.withIo { crash := crash }) p io e u ∧
      ∀ c ∈ e.calls, c.Fits pb := by
  rcases step_cases hs with ⟨q, io, n, e', hn, hsec⟩ | ⟨q, srv, hch, -⟩
  · have heff := hsec.effect_eq hn
    rw [Action.withIo_effect, he] at heff
    obtain ⟨rfl, rfl⟩ := Prod.mk.inj (Option.some.inj heff)
    refine ⟨n, io, hn, hsec, fun c hc => (ha.2 p e he c hc).fits ?_⟩
    exact (h.entered.section h.remembered.toRecorded hn hsec (Action.withIo_reliable _).sure
      ((Action.withIo_makes _).mpr ha.1)).calls c hc
  · have heff := hch.effect_eq
    rw [Action.withIo_effect, he] at heff
    cases heff

theorem Legible.running (h : Legible pb s) {p : ℕ} {n : Node}
    (hn : (s.view pb).node p = some n) :
    Encodes pb (s.dirs p) (diskOf pb (s.dirs p)) [] := by
  obtain ⟨tail, henc, htail⟩ := h.files p
  have hn' : s.cluster.node p = some n := hn
  exact htail (by rw [hn']; rfl) ▸ henc

/-- The files after the `k`th call was cut short. -/
theorem Encodes.cutAt {calls : List Call} {k : ℕ} (h : Encodes pb dir d [])
    (hcalls : ∀ c ∈ calls, c.Fits pb) (hc : calls[k]? = some c) (pt : CrashPoint) :
    ∃ r tail, Encodes pb (KMC.cutAt pb dir calls k c pt) ((d.runs (calls.take k)).write r c) tail :=
  (h.runs fun x hx => hcalls x (List.mem_of_mem_take hx)).cut
    (hcalls c (List.mem_of_getElem? hc)) pt

theorem Legible.next (h : Legible pb s) {b : Action} {u : State} {dirs : ℕ → RaftDir}
    (hb : b.Reliable) (hm : b.Makes (LogEntry.Short pb)) (hs : step cfg (s.view pb) b = some v)
    (hu : u.Alike v) (hfiles : ∀ p, ∃ tail, Encodes pb (dirs p) (v.servers p).disk tail ∧
      ((v.node p).isSome → tail = [])) :
    FileState.view pb ⟨u, dirs⟩ = v ∧ Legible pb ⟨u, dirs⟩ := by
  have hdisk : ∀ p, diskOf pb (dirs p) = (v.servers p).disk := fun p => by
    obtain ⟨tail, henc, -⟩ := hfiles p
    exact henc.diskOf
  have hview : FileState.view pb ⟨u, dirs⟩ = v := view_alike hu hdisk
  refine ⟨hview, fun p => ?_, ?_, ?_⟩
  · obtain ⟨tail, henc, htail⟩ := hfiles p
    refine ⟨tail, (hdisk p).symm ▸ henc, fun hsome => htail ?_⟩
    rw [State.node, hu.servers p]
    exact hsome
  · exact hview ▸ h.remembered.step hb hs
  · exact hview ▸ h.entered.step h.remembered.toRecorded hb.sure hm hs

theorem Legible.files_update (h : Legible pb s) {p : ℕ} {dir' : RaftDir} {tail' : Bytes}
    (hself : Encodes pb dir' (v.servers p).disk tail' ∧ ((v.node p).isSome → tail' = []))
    (hother : ∀ q, q ≠ p → v.servers q = (s.view pb).servers q) :
    ∀ q, ∃ tail, Encodes pb (Function.update s.dirs p dir' q) (v.servers q).disk tail ∧
      ((v.node q).isSome → tail = []) := by
  intro q
  by_cases hq : q = p
  · subst hq
    rw [Function.update_self]
    exact ⟨tail', hself⟩
  · rw [Function.update_of_ne hq, State.node, hother q hq]
    exact h.files q

/-- What a step on files is to the records that they hold: a step with a reliable disk, or none. -/
def Abstracts (cfg : Config) (pb : Proto) (s t : FileState) : Prop :=
  Legible pb t ∧ (t.view pb = s.view pb ∨
    ∃ b, b.Reliable ∧ step cfg (s.view pb) b = some (t.view pb))

theorem Legible.reopen (h : Legible pb s) {p : ℕ} {st : PersistedState}
    {ops : List (Op RaftFile UInt8)} (hp : p ∈ cfg.ids) (hn : s.cluster.node p = none)
    (hopen : openPersisterAt pb (s.dirs p) = .ok (st, ops)) :
    Abstracts cfg pb s ⟨s.cluster.setServer p
        (.started (newNode p (cfg.peers p) (cfg.retain p) st) {} (s.cluster.servers p).epoch),
      Function.update s.dirs p (runs (s.dirs p) ops)⟩ := by
  obtain ⟨tail, henc, -⟩ := h.files p
  obtain ⟨ops', hopen', henc', -⟩ := henc.openPersister
  obtain ⟨rfl, rfl⟩ := Prod.mk.inj (Except.ok.inj (hopen.symm.trans hopen'))
  set n := newNode p (cfg.peers p) (cfg.retain p) (openPersister (diskOf pb (s.dirs p)))
  set v := (s.view pb).setServer p
    (.started n (diskOf pb (s.dirs p)) (s.cluster.servers p).epoch) with hv
  have hstep : step cfg (s.view pb) (.restart p) = some v := by
    have hnone : ((s.view pb).node p).isNone := by
      rw [show (s.view pb).node p = s.cluster.node p from rfl, hn]
      rfl
    simp only [step, hp, hnone, and_self, if_true]
    rfl
  have hself : v.servers p = .started n (diskOf pb (s.dirs p)) (s.cluster.servers p).epoch :=
    Function.update_self ..
  have hother : ∀ q, q ≠ p → v.servers q = (s.view pb).servers q := fun q hq =>
    Function.update_of_ne hq ..
  have halike : (s.cluster.setServer p (.started n {} (s.cluster.servers p).epoch)).Alike v := by
    refine ⟨rfl, fun q => ?_⟩
    by_cases hq : q = p
    · subst hq
      rw [hself]
      simp [State.setServer, Server.started]
    · rw [hother q hq]
      simp [State.setServer, hq, FileState.view]
  have hb : (Action.restart p).Reliable := rfl
  obtain ⟨hview, hleg⟩ := h.next hb trivial hstep halike
    (h.files_update ⟨by rw [hself]; exact henc', fun _ => rfl⟩ hother)
  exact ⟨hleg, .inr ⟨.restart p, hb, hview ▸ hstep⟩⟩

theorem Legible.act (h : Legible pb s) {a : Action} (ha : a.Small pb s) {u : State} {p : ℕ}
    (hstep : step cfg (s.view pb) (a.withIo {}) = some u)
    (he : (a.withIo {}).effect (s.view pb) = some (p, e)) : Abstracts cfg pb s
      ⟨u, Function.update s.dirs p (runs (s.dirs p) (e.calls.flatMap (Call.ops pb)))⟩ := by
  obtain ⟨n, io, hn, hsec, hfits⟩ := h.section ha hstep he
  have hio : io = {} := by
    rw [hsec.io_eq]
    cases a <;> rfl
  subst hio
  have hserver := hsec.server.resolve_right (by rintro ⟨k, r, hc, -⟩; cases hc)
  have henc : Encodes pb (runs (s.dirs p) (e.calls.flatMap (Call.ops pb)))
      (u.servers p).disk [] := by
    rw [hserver.2]
    exact (h.running hn).runs hfits
  have hb : (a.withIo {}).Reliable := Action.withIo_reliable none
  obtain ⟨hview, hleg⟩ := h.next hb ((Action.withIo_makes _).mpr ha.1) hstep (.refl u)
    (h.files_update ⟨henc, fun _ => rfl⟩ fun q hq => hsec.other hq)
  exact ⟨hleg, .inr ⟨_, hb, hview ▸ hstep⟩⟩

theorem Change.up {s : State} {a : Action} {p : ℕ} {srv : Server} (h : Change cfg s a p srv)
    (ha : ∀ p, a ≠ .restart p) (hup : srv.proc.isSome) : (s.node p).isSome := by
  cases h with
  | applierTake hn _ _ => rw [hn]; rfl
  | applierSend hn _ => rw [hn]; rfl
  | crash _ => cases hup
  | restart _ _ => exact absurd rfl (ha p)
  | stop hn => rw [hn]; rfl

theorem Legible.change (h : Legible pb s) {a : Action} (ha : a.Small pb s)
    (hres : ∀ p, a ≠ .restart p) {u : State}
    (hstep : step cfg (s.view pb) (a.withIo {}) = some u)
    (he : (a.withIo {}).effect (s.view pb) = none) : Abstracts cfg pb s ⟨u, s.dirs⟩ := by
  rcases step_cases hstep with ⟨q, io, n, e', hn, hsec⟩ | ⟨p, srv, hch, rfl⟩
  · rw [hsec.effect_eq hn] at he
    cases he
  have hres' : ∀ p, a.withIo {} ≠ .restart p := by
    intro p hp
    cases a <;> first | exact hres p hp | cases hp
  have hb : (a.withIo {}).Reliable := Action.withIo_reliable none
  have hfiles : ∀ q, ∃ tail, Encodes pb (s.dirs q)
      (((s.view pb).setServer p srv).servers q).disk tail ∧
      ((((s.view pb).setServer p srv).node q).isSome → tail = []) := by
    intro q
    obtain ⟨tail, henc, htail⟩ := h.files q
    by_cases hq : q = p
    · subst hq
      refine ⟨tail, ?_, fun hsome => htail (hch.up hres' ?_)⟩
      · simp only [State.setServer, Function.update_self, hch.disk]
        exact henc
      · simpa [State.setServer, State.node] using hsome
    · refine ⟨tail, ?_, fun hsome => htail ?_⟩
      · simp only [State.setServer, Function.update_of_ne hq]
        exact henc
      · simp only [State.node, State.setServer, Function.update_of_ne hq] at hsome
        exact hsome
  obtain ⟨hview, hleg⟩ := h.next hb ((Action.withIo_makes _).mpr ha.1) hstep (.refl _) hfiles
  exact ⟨hleg, .inr ⟨_, hb, hview ▸ hstep⟩⟩

theorem Legible.die (h : Legible pb s) {a : Action} (ha : a.Small pb s) {u : State} {p k : ℕ}
    (hstep : step cfg (s.view pb) (a.withIo { crash := some (k, 0) }) = some u)
    (he : (a.withIo {}).effect (s.view pb) = some (p, e)) (hc : e.calls[k]? = some c)
    (pt : CrashPoint) :
    Abstracts cfg pb s ⟨u, Function.update s.dirs p (cutAt pb (s.dirs p) e.calls k c pt)⟩ := by
  obtain ⟨n, -, hn, -, hfits⟩ := h.section ha hstep he
  obtain ⟨r, tail, henc⟩ := (h.running hn).cutAt hfits hc pt
  have hne : e.calls ≠ [] := fun hnil => by simp [hnil] at hc
  -- the records that are there decide how far the call got
  obtain ⟨v, hstep', halike⟩ := step_alike hstep he hne r
  obtain ⟨n', io, hn', hsec, -⟩ := h.section ha hstep' he
  have hio : io = { crash := some (k, r) } := hsec.io_eq.trans (Action.withIo_io he hne _)
  subst hio
  obtain ⟨k', r', hcrash, hserver⟩ := hsec.server.resolve_left (by rintro ⟨hnone, -⟩; cases hnone)
  obtain ⟨rfl, rfl⟩ := Prod.mk.inj (Option.some.inj hcrash)
  have hhead : (e.calls.drop k).head? = some c := by rw [List.head?_drop, hc]
  have hself : Encodes pb (cutAt pb (s.dirs p) e.calls k c pt) (v.servers p).disk tail := by
    rw [hserver, hhead]
    exact henc
  have hdead : (v.node p).isSome → tail = [] := by
    rw [State.node, hserver]
    exact fun hsome => by cases hsome
  have hb : (a.withIo { crash := some (k, r) }).Reliable := Action.withIo_reliable _
  obtain ⟨hview, hleg⟩ := h.next hb ((Action.withIo_makes _).mpr ha.1) hstep' halike
    (h.files_update ⟨hself, hdead⟩ fun q hq => hsec.other hq)
  exact ⟨hleg, .inr ⟨_, hb, hview ▸ hstep'⟩⟩

theorem Legible.dieOpening (h : Legible pb s) {p : ℕ} {st : PersistedState}
    {ops : List (Op RaftFile UInt8)} (hn : s.cluster.node p = none)
    (hopen : openPersisterAt pb (s.dirs p) = .ok (st, ops)) (pt : CrashPoint) :
    Abstracts cfg pb s ⟨s.cluster, Function.update s.dirs p (crashed (s.dirs p) ops pt)⟩ := by
  obtain ⟨tail, henc, -⟩ := h.files p
  obtain ⟨ops', hopen', -, hcut⟩ := henc.openPersister
  obtain ⟨rfl, rfl⟩ := Prod.mk.inj (Except.ok.inj (hopen.symm.trans hopen'))
  obtain ⟨tail', henc'⟩ := hcut pt
  have hview : FileState.view pb ⟨s.cluster, Function.update s.dirs p
      (crashed (s.dirs p) ops pt)⟩ = s.view pb := by
    refine view_alike ⟨rfl, fun q => rfl⟩ fun q => ?_
    by_cases hq : q = p
    · subst hq
      rw [Function.update_self]
      exact henc'.diskOf
    · rw [Function.update_of_ne hq]
      rfl
  refine ⟨⟨fun q => ?_, hview ▸ h.remembered, hview ▸ h.entered⟩, .inl hview⟩
  by_cases hq : q = p
  · subst hq
    simp only [Function.update_self]
    exact ⟨tail', henc'.diskOf.symm ▸ henc', fun hsome => by rw [hn] at hsome; cases hsome⟩
  · simp only [Function.update_of_ne hq]
    exact h.files q

theorem Legible.refines (h : Legible pb s) (hx : x.Small pb s)
    (hs : fileStep cfg pb s x = some t) : Abstracts cfg pb s t := by
  cases fileStep_cases hs with
  | reopen hp hn hopen => exact h.reopen hp hn hopen
  | act hstep he => exact h.act hx hstep he
  | change hres hstep he => exact h.change hx hres hstep he
  | die hstep he hc => exact h.die hx hstep he hc _
  | dieOpening hn hopen => exact h.dieOpening hn hopen _

end KMC
