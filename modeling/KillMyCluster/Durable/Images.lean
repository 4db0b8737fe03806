import KillMyCluster.Durable.Tracks
import KillMyCluster.Raft.Moves

/-! Where snapshots come from. A snapshot in a node's memory, in its file, on its way to another
node or to the state machine was made by some call of `Snapshot`; whatever is true of those is
true of it. -/

namespace KMC

variable {Q : Snapshot → Prop} {n m : Node} {file : Option Snapshot} {e : Effect} {io : Io}
  {d : Disk} {c : Call}

structure Node.Images (Q : Snapshot → Prop) (n : Node) : Prop where
  cache : n.snapCache.index = 0 ∨ Q n.snapCache
  pending : ∀ snap ∈ n.pendingSnapshot, Q snap

def Call.Images (Q : Snapshot → Prop) : Call → Prop
  | .saveSnapshot snap _ _ _ => Q snap
  | _ => True

structure Server.Images (Q : Snapshot → Prop) (srv : Server) : Prop where
  up : ∀ n ∈ srv.proc, n.Images Q
  file : ∀ snap ∈ srv.disk.snap, Q snap
  msgs : ∀ snap, .snapshot snap ∈ srv.sent ++ srv.batch → Q snap

def Body.Images (Q : Snapshot → Prop) : Body → Prop
  | .snapshot req => Q ⟨req.lastIncludedIndex, req.lastIncludedTerm, req.data⟩
  | _ => True

structure Imaged (Q : Snapshot → Prop) (s : State) : Prop where
  servers : ∀ p, (s.servers p).Images Q
  rpcs : ∀ (k : ℕ) (r : Rpc), s.rpcs[k]? = some r → r.body.Images Q

theorem imaged_init (cfg : Config) : Imaged Q cfg.init :=
  ⟨fun _ => ⟨by simp [Config.init], by simp [Config.init], by simp [Config.init]⟩,
    by simp [Config.init]⟩

theorem Imaged.imp {Q' : Snapshot → Prop} {s : State} (hQ : ∀ snap, Q snap → Q' snap)
    (h : Imaged Q s) : Imaged Q' s where
  servers p := by
    obtain ⟨h1, h2, h3⟩ := h.servers p
    exact ⟨fun n hn => ⟨(h1 n hn).cache.imp_right (hQ _),
        fun snap hs => hQ _ ((h1 n hn).pending _ hs)⟩,
      fun snap hs => hQ _ (h2 snap hs), fun snap hs => hQ _ (h3 snap hs)⟩
  rpcs k r hr := by
    have := h.rpcs k r hr
    cases hb : r.body <;> rw [hb] at this <;> first | trivial | exact hQ _ this

/-! ## One section -/

theorem Node.Images.same (h : n.Images Q) (hm : n.Same m) : m.Images Q :=
  ⟨hm.snapCache ▸ h.cache, hm.pendingSnapshot ▸ h.pending⟩

theorem Effect.Grows.images (h : e.Grows n) (hn : n.Images Q) :
    e.node.Images Q ∧ ∀ c ∈ e.calls, c.Images Q := by
  refine ⟨⟨h.snapCache ▸ hn.cache, h.pending ▸ hn.pending⟩, fun c hc => ?_⟩
  have := h.calls c hc
  cases c with
  | saveSnapshot => cases this
  | _ => trivial

theorem Node.Images.shipped (h : n.Images Q) (hf : ∀ snap ∈ file, Q snap)
    (h0 : (n.shipped file).index ≠ 0) : Q (n.shipped file) := by
  unfold Node.shipped at h0 ⊢
  split at h0
  · rename_i hz
    rw [if_pos hz]
    cases hfile : file with
    | none => simp [hfile] at h0
    | some snap => exact hf snap hfile
  · rename_i hz
    rw [if_neg hz]
    exact h.cache.resolve_left hz

theorem Saves.images {hs : List Call} (h : Saves hs) : ∀ c ∈ hs, c.Images Q := by
  intro c hc
  obtain ⟨t, v, rfl⟩ := h c hc
  trivial

theorem Node.Images.installLocked {fail : Call → Bool} {req : InstallSnapshotRequest}
    (h : n.Images Q) (hreq : Q ⟨req.lastIncludedIndex, req.lastIncludedTerm, req.data⟩) :
    (n.installLocked fail req).1.node.Images Q ∧
      ∀ c ∈ (n.installLocked fail req).1.calls, c.Images Q := by
  unfold Node.installLocked
  split
  · exact ⟨h, by simp⟩
  simp only
  split
  · exact ⟨⟨h.cache, h.pending⟩, by simpa [Call.Images] using hreq⟩
  · refine ⟨⟨.inr hreq, fun snap hs => ?_⟩, by simpa [Call.Images] using hreq⟩
    obtain rfl := Option.some.inj hs
    exact hreq

theorem Node.Images.snapshot {fail : Call → Bool} {index : ℕ} {data : Bytes} (h : n.Images Q)
    (hnew : ∀ term, Q ⟨index, term, data⟩) : (n.snapshot fail index data).1.node.Images Q ∧
      ∀ c ∈ (n.snapshot fail index data).1.calls, c.Images Q := by
  unfold Node.snapshot
  split
  · exact ⟨h, by simp⟩
  split
  · exact ⟨h, by simp⟩
  split
  · exact ⟨h, by simp⟩
  simp only
  split
  · exact ⟨⟨h.cache, h.pending⟩, by simpa [Call.Images] using hnew _⟩
  · exact ⟨⟨.inr (hnew _), h.pending⟩, by simpa [Call.Images] using hnew _⟩

/-- A call of `Snapshot` brings a new image; everything else moves old ones. -/
theorem Moves.images {s : State} {a : Action} (h : Moves s file n a io e) (hn : n.Images Q)
    (hf : ∀ snap ∈ file, Q snap)
    (hr : ∀ (k : ℕ) (r : Rpc), s.rpcs[k]? = some r → r.body.Images Q)
    (hnew : ∀ p index data io, a = .snapshot p index data io → ∀ term, Q ⟨index, term, data⟩) :
    e.node.Images Q ∧ ∀ c ∈ e.calls, c.Images Q := by
  cases h with
  | stays hq => exact hq.grows.images hn
  | ship h0 => exact ⟨⟨.inr (hn.shipped hf h0), hn.pending⟩, by simp⟩
  | commit hm _ => exact ⟨⟨(hn.same hm).cache, (hn.same hm).pending⟩, by simp⟩
  | merge _ _ _ _ hm hs _ => exact ((Node.mergeEntries_grows _ _).after hm hs).images hn
  | install hk hb _ hm hs _ =>
    have hreq := hr _ _ hk
    rw [hb] at hreq
    obtain ⟨h1, h2⟩ := (hn.same hm).installLocked hreq
    refine ⟨h1, fun c hc => ?_⟩
    rcases List.mem_append.mp hc with hc | hc
    · exact hs.images c hc
    · exact h2 c hc
  | propose _ => exact (n.commitPropBatch_grows _).images hn
  | snapshot => exact hn.snapshot (hnew _ _ _ _ rfl)

theorem Node.collectBatch_commands {l : RaftLog} {i k : ℕ} {batch : List ApplyMsg}
    (h : Node.collectBatch l i k = some batch) (snap : Snapshot) : .snapshot snap ∉ batch := by
  induction k generalizing i batch with
  | zero =>
    obtain rfl := Option.some.inj h
    simp
  | succ k ih =>
    simp only [Node.collectBatch, Option.bind_eq_bind, Option.bind_eq_some_iff, Option.pure_def,
      Option.some.injEq] at h
    obtain ⟨e, -, rest, hrest, rfl⟩ := h
    simpa using ih hrest

/-! ## The file -/

theorem Disk.write_images (hd : ∀ snap ∈ d.snap, Q snap) (hc : c.Images Q) (k : ℕ) :
    ∀ snap ∈ (d.write k c).snap, Q snap := by
  cases c with
  | saveSnapshot snap t v keep =>
    have hnew : ∀ x ∈ some snap, Q x := fun x hx => Option.some.inj hx ▸ hc
    rcases d.write_snapshot k snap t v keep with h | h | h <;> rw [h]
    · exact hd
    · exact hnew
    · exact hnew
  | _ => exact hd

theorem Io.apply_images (hd : ∀ snap ∈ d.snap, Q snap) (hc : c.Images Q) :
    ∀ snap ∈ (io.apply d c).snap, Q snap := by
  unfold Io.apply
  split
  · exact Disk.write_images hd hc _
  · cases c with
    | saveSnapshot snap t v keep => exact fun x hx => Option.some.inj hx ▸ hc
    | _ => exact hd

theorem Io.applied_images {calls : List Call} (hc : ∀ c ∈ calls, c.Images Q)
    (hd : ∀ snap ∈ d.snap, Q snap) : ∀ snap ∈ (calls.foldl io.apply d).snap, Q snap := by
  induction calls generalizing d with
  | nil => exact hd
  | cons c cs ih =>
    exact ih (fun c hm => hc c (List.mem_cons_of_mem _ hm))
      (Io.apply_images hd (hc c List.mem_cons_self))

/-! ## Runs -/

variable {cfg : Config} {s t : State} {a : Action}

theorem newNode_images (id : ℕ) (peers : List ℕ) (retain : ℤ) (hd : ∀ snap ∈ d.snap, Q snap) :
    (newNode id peers retain (openPersister d)).Images Q := by
  refine ⟨.inl rfl, fun snap hs => ?_⟩
  simp only [newNode, openPersister_snap, Option.mem_def, Option.ite_none_right_eq_some] at hs
  obtain ⟨hpos, hs⟩ := hs
  obtain rfl := Option.some.inj hs
  cases hsnap : d.snap with
  | none => simp [Disk.image, hsnap] at hpos
  | some x =>
    rw [Disk.image, hsnap]
    exact hd x hsnap

theorem Imaged.step (h : Imaged Q s) (hs : step cfg s a = some t)
    (hnew : ∀ p index data io, a = .snapshot p index data io → ∀ term, Q ⟨index, term, data⟩) :
    Imaged Q t where
  servers := by
    have hsec : ∀ {p : ℕ} {io : Io} {n : Node} {e : Effect}, s.node p = some n →
        Section cfg s n a p io e t → e.node.Images Q ∧ ∀ c ∈ e.calls, c.Images Q :=
      fun {p} _ _ _ hn hsec =>
        hsec.moves.images ((h.servers p).up _ hn) (h.servers p).file h.rpcs hnew
    refine step_servers (I := fun _ srv => srv.Images Q) hs h.servers
      (fun p io n e hn hse _ => ?_) (fun p io n e k r hn hse _ => ?_) (fun p srv hch => ?_)
    · obtain ⟨h1, h2⟩ := hsec hn hse
      refine ⟨fun m hm => ?_, Io.applied_images h2 (h.servers p).file, (h.servers p).msgs⟩
      obtain rfl := Option.some.inj hm
      exact h1
    · have h2 := (hsec hn hse).2
      have htake : ∀ snap ∈ ((e.calls.take k).foldl io.apply (s.servers p).disk).snap, Q snap :=
        Io.applied_images (fun c hc => h2 c (List.mem_of_mem_take hc)) (h.servers p).file
      refine ⟨by simp [Server.die], ?_, (h.servers p).msgs⟩
      cases hnext : (e.calls.drop k).head? with
      | none => simpa [Server.die, hnext] using htake
      | some c =>
        simp only [Server.die, Option.elim_some]
        exact Disk.write_images htake
          (h2 c (List.mem_of_mem_drop (List.mem_of_mem_head? hnext))) r
    · have hp := h.servers p
      cases hch with
      | @applierTake _ n n' batch hn htake hb =>
        have hnode := hp.up n hn
        have hmsgs := hp.msgs
        rw [hb, List.append_nil] at hmsgs
        rcases Node.applierTake_cases htake with ⟨snap, hsnap, rfl, rfl⟩ | ⟨hnone, rfl, hcol⟩
        · refine ⟨fun m hm => ?_, hp.file, fun x hx => ?_⟩
          · obtain rfl := Option.some.inj hm
            exact ⟨hnode.cache, by simp⟩
          · rcases List.mem_append.mp hx with hx | hx
            · exact hmsgs x hx
            · obtain rfl := ApplyMsg.snapshot.inj (List.mem_singleton.mp hx)
              exact hnode.pending _ hsnap
        · refine ⟨fun m hm => ?_, hp.file, fun x hx => ?_⟩
          · obtain rfl := Option.some.inj hm
            exact ⟨hnode.cache, hnode.pending⟩
          · rcases List.mem_append.mp hx with hx | hx
            · exact hmsgs x hx
            · exact absurd hx (Node.collectBatch_commands hcol x)
      | applierSend hn hb =>
        refine ⟨fun m hm => hp.up m (Option.some.inj hm ▸ hn), hp.file, fun x hx => hp.msgs x ?_⟩
        rw [hb]
        simpa using hx
      | crash _ => exact ⟨by simp [Server.die], hp.file, hp.msgs⟩
      | restart _ _ =>
        refine ⟨fun m hm => ?_, hp.file, by simp⟩
        obtain rfl := Option.some.inj hm
        exact newNode_images _ _ _ hp.file
      | stop hn =>
        refine ⟨fun m hm => ?_, hp.file, hp.msgs⟩
        obtain rfl := Option.some.inj hm
        exact ⟨(hp.up _ hn).cache, (hp.up _ hn).pending⟩
  rpcs := step_bodies hs h.rpcs fun p io n e hn hsec q body hb => by
    rcases hsec.moves.sends q body hb with hf | ⟨h0, rfl⟩
    · cases body with
      | snapshot => exact hf.elim
      | _ => trivial
    · exact ((h.servers p).up n hn).shipped (h.servers p).file h0

end KMC
