import KillMyCluster.Durable.Restore
import KillMyCluster.Durable.Wire
import KillMyCluster.Safety.Settled

/-! What a process finds when it starts again: the files always open, and the node that is made of
them has the memory that was on its way to disk. -/

namespace KMC

open Files Storage Trace

variable {pb : Proto} {dir : RaftDir} {d : Disk} {tail : Bytes} {m : Memory}

/-- `openPersister` on the files and then `NewNode` give back the term, the vote and, above the
snapshot on disk, the entries of `m`, one after the other. -/
def Restores (pb : Proto) (dir : RaftDir) (m : Memory) : Prop :=
  ∃ snap st ops, loadImage dir = .ok snap ∧ openPersisterAt pb dir = .ok (st, ops) ∧
    Consecutive snap.index (m.above snap.index) ∧
    ∀ id peers retain, (newNode id peers retain st).currentTerm = m.term ∧
      (newNode id peers retain st).votedFor = m.votedFor ∧
      (newNode id peers retain st).log = ⟨⟨snap.index, snap.term, []⟩, m.above snap.index⟩

theorem Encodes.restores (h : Encodes pb dir d tail) (hm : d.Gives m) : Restores pb dir m := by
  obtain ⟨ops, hopen, -⟩ := h.openPersister
  refine ⟨d.image, _, ops, h.loadImage, hopen, hm.entries ▸ hm.consecutive, ?_⟩
  refine fun id peers retain => ⟨hm.term, hm.votedFor, ?_⟩
  rw [newNode_log, Disk.recovered, openPersister_snap, hm.entries]
  rfl

theorem Restores.gives_of (hm : Restores pb dir m) (hload : loadImage dir = .ok d.image)
    (hst : ∀ st ops, openPersisterAt pb dir = .ok (st, ops) → st = openPersister d) :
    d.Gives m := by
  obtain ⟨snap, st, ops, hsnap, hopen, hcons, hnode⟩ := hm
  obtain rfl : snap = d.image := Except.ok.inj (hsnap.symm.trans hload)
  obtain rfl := hst st ops hopen
  obtain ⟨hterm, hvote, hlog⟩ := hnode 0 [] 0
  rw [newNode_log] at hlog
  have hentries : (openPersister d).entries = m.above d.image.index :=
    congrArg RaftLog.reals hlog
  exact ⟨hterm, hvote, hentries, hentries ▸ hcons⟩

theorem Encodes.gives (h : Encodes pb dir d tail) (hm : Restores pb dir m) : d.Gives m := by
  obtain ⟨ops, hopen, -⟩ := h.openPersister
  refine hm.gives_of h.loadImage fun st ops' hst => ?_
  exact (Prod.mk.inj (Except.ok.inj (hst.symm.trans hopen))).1

theorem Disk.Sound.gives (h : d.Sound) : ∃ m, d.Gives m := by
  obtain ⟨l, hwf, ht⟩ := h
  exact ⟨_, ht.gives hwf rfl⟩

theorem legible_reaches {cfg : Config} {s : FileState}
    (h : Reaches (fileStep cfg pb) (fun s x => x.Small pb s) cfg.initFiles s) : Legible pb s :=
  h.invariant (fun _ _ _ hl hx hs => (hl.refines hx hs).1) (legible_init cfg)

/-- In every run in which what is proposed is short, the files of a server can be opened; those of a
running one give back its memory; after a death in a call they give back the memory before the call,
or after it with a part of the entries that it writes; and a death while opening changes nothing. -/
theorem recovery_refines_memory (cfg : Config) (pb : Proto) {s : FileState}
    (h : Reaches (fileStep cfg pb) (fun s x => x.Small pb s) cfg.initFiles s) (p : ℕ) :
    (∃ m, Restores pb (s.dirs p) m) ∧
    (∀ n, s.cluster.node p = some n → Restores pb (s.dirs p) n.memory) ∧
    (∀ (a : Action) (n : Node) (e : Effect) (u : State), a.Small pb s → s.cluster.node p = some n →
      step cfg (s.view pb) (a.withIo {}) = some u →
      (a.withIo {}).effect (s.view pb) = some (p, e) →
      e.calls.foldl Memory.after n.memory = e.node.memory ∧
      ∀ k c, e.calls[k]? = some c → ∀ pt, ∃ m,
        c.Leaves ((e.calls.take k).foldl Memory.after n.memory) m ∧
          Restores pb (cutAt pb (s.dirs p) e.calls k c pt) m) ∧
    ∀ m st ops, Restores pb (s.dirs p) m → openPersisterAt pb (s.dirs p) = .ok (st, ops) →
      ∀ pt, Restores pb (crashed (s.dirs p) ops pt) m := by
  have hleg := legible_reaches h
  obtain ⟨tail, henc, -⟩ := hleg.files p
  refine ⟨?_, fun n hn => ?_, fun a n e u ha hn hs he => ?_, fun m st ops hm hopen pt => ?_⟩
  · obtain ⟨m, hm⟩ := (hleg.remembered.sound p).gives
    exact ⟨m, henc.restores hm⟩
  · exact henc.restores (hleg.remembered.gives hn)
  · obtain ⟨n', io, hn', hsec, hfits⟩ := hleg.section ha hs he
    obtain rfl : n' = n := Option.mem_unique hn' hn
    obtain ⟨h1, h2⟩ := hleg.remembered.section hn' hsec (Action.withIo_reliable none)
    refine ⟨h1, fun k c hc pt => ?_⟩
    obtain ⟨r, tail', henc'⟩ := (hleg.running hn').cutAt hfits hc pt
    obtain ⟨m, hleaves, hgives⟩ := h2 k c hc r
    exact ⟨m, hleaves, henc'.restores hgives⟩
  · obtain ⟨ops', hopen', -, hcut⟩ := henc.openPersister
    obtain ⟨-, rfl⟩ := Prod.mk.inj (Except.ok.inj (hopen.symm.trans hopen'))
    obtain ⟨tail', henc'⟩ := hcut pt
    exact henc'.restores (henc.gives hm)

theorem short_wire {x : LogEntry} (h : x.data.length < 2 ^ 31) : x.Short .wire := by
  intro _ _
  have hle : (Proto.wire.marshal x).length ≤ x.data.length + 33 := Wire.length_marshal_le x
  omega

theorem Action.Small.of_effect {s : FileState} {a : Action} {p : ℕ} {e : Effect}
    (hmakes : a.Makes (LogEntry.Short pb)) (he : (a.withIo {}).effect (s.view pb) = some (p, e))
    (hwords : ∀ c ∈ e.calls, c.Words) : a.Small pb s := by
  refine ⟨hmakes, fun p' e' he' => ?_⟩
  obtain ⟨-, rfl⟩ := Prod.mk.inj (Option.mem_unique he he')
  exact hwords

def electSelf : List FileAction := [.act (.restart 1), .act (.tick 1 {})]

theorem electSelf_small (pb : Proto) :
    Along (fileStep .single pb) (fun s x => x.Small pb s) Config.single.initFiles electSelf := by
  refine ⟨⟨trivial, fun _ _ he => by cases he⟩, ?_, trivial⟩
  have hwords : ∀ c ∈ [Call.saveHardState 1 1], c.Words := by
    simp [Call.Words, Call.records, Rec.Words]
  exact Action.Small.of_effect trivial rfl hwords

/-- A process dies five bytes into the record of an entry. -/
theorem recovery_refines_memory_torn : ∃ (s : FileState) (n : Node) (e : Effect) (m : Memory),
    Reaches (fileStep .single .wire) (fun s x => x.Small .wire s) Config.single.initFiles s ∧
    s.cluster.node 1 = some n ∧ n.memory = ⟨1, 1, []⟩ ∧
    e.calls = [.appendEntries [⟨1, 1, [7]⟩]] ∧ e.node.memory = ⟨1, 1, [⟨1, 1, [7]⟩]⟩ ∧
    (Call.appendEntries [⟨1, 1, [7]⟩]).Leaves n.memory m ∧
    Restores .wire (cutAt .wire (s.dirs 1) e.calls 0 (.appendEntries [⟨1, 1, [7]⟩]) ⟨0, some 5⟩)
      m := by
  have hs := Reaches.of_exec (fileStep .single .wire) (fun s x => x.Small .wire s)
    Config.single.initFiles electSelf (electSelf_small _) rfl
  have hwords : ∀ c ∈ [Call.appendEntries [⟨1, 1, [7]⟩]], c.Words := by
    simp [Call.Words, Call.records, Rec.Words]
  obtain ⟨-, -, hcall, -⟩ := recovery_refines_memory .single .wire hs 1
  obtain ⟨-, hcut⟩ := hcall (.propose 1 [[7]] {}) _ _ _
    (Action.Small.of_effect (by simp [Action.Makes, short_wire]) rfl hwords) rfl rfl rfl
  obtain ⟨m, hm⟩ := hcut 0 _ rfl ⟨0, some 5⟩
  exact ⟨_, _, _, m, hs, rfl, rfl, rfl, rfl, hm⟩

/-- A record of 4 GiB at the end of the log file is not seen. -/
theorem restores_wrapped (h : Encodes pb dir d []) {r : Rec} (hr : (r.encode pb).length = 2 ^ 32)
    (hm : Restores pb (runs dir [.append .wal (Rec.frames pb [r])]) m) : d.Gives m := by
  have hwal : runs dir [.append .wal (Rec.frames pb [r])] .wal =
      some (Rec.frames pb d.wal ++ frame (r.encode pb)) := by
    have hone : Rec.frames pb [r] = frame (r.encode pb) := by
      rw [Rec.frames, List.map_singleton, Framing.Code.putAll_cons, Framing.Code.putAll_nil,
        List.append_nil]
      rfl
    rw [← hone]
    simp [Op.run, h.wal]
  have hload : loadImage (runs dir [.append .wal (Rec.frames pb [r])]) = .ok d.image := by
    rw [← h.loadImage]
    rfl
  refine hm.gives_of hload fun st ops hopen => ?_
  rw [openPersisterAt, hload, hwal] at hopen
  simp only [bind, Except.bind] at hopen
  split at hopen
  · cases hopen
  · rename_i hreplay
    have hst := replayWAL_wrapped (Rec.payloads_fit h.fits)
      (PersistedState.replay_payloads h.fits { snap := d.image }) hr ⟨_, rfl⟩ hreplay
    obtain ⟨rfl, -⟩ := Prod.mk.inj (Except.ok.inj hopen)
    rw [hst]
    rfl

/-- A command is proposed whose record has 4 GiB, a length that is written as 0: the entry is in
memory and synced, and is not recovered. -/
theorem not_recovered {data : Bytes} (hdata : (pb.marshal ⟨1, 1, data⟩).length + 1 = 2 ^ 32) :
    ∃ s n, Reaches (fileStep .single pb) (fun _ _ => True) Config.single.initFiles s ∧
      s.cluster.node 1 = some n ∧ n.memory = ⟨1, 1, [⟨1, 1, data⟩]⟩ ∧
      ¬ Restores pb (s.dirs 1) n.memory := by
  have hs := Reaches.of_exec (fileStep .single pb) (fun s x => x.Small pb s)
    Config.single.initFiles electSelf (electSelf_small pb) rfl
  have hleg := legible_reaches hs
  have hs' := Reaches.of_exec (fileStep .single pb) (fun _ _ => True) Config.single.initFiles
    electSelf (.of_forall (fun _ _ _ => trivial) _) rfl
  refine ⟨_, _, hs'.snoc (a := .act (.propose 1 [data] {})) rfl trivial, rfl, rfl, ?_⟩
  intro hrestores
  have hlen : ((Rec.entry ⟨1, 1, data⟩).encode pb).length = 2 ^ 32 := hdata
  have henc := hleg.running (p := 1) rfl
  have himage := congrArg Snapshot.index (Except.ok.inj henc.loadImage)
  have hno : ∀ d : Disk, 0 = d.image.index → d.Gives ⟨1, 1, []⟩ →
      ¬ d.Gives ⟨1, 1, [⟨1, 1, data⟩]⟩ := by
    intro d hd h h'
    have hentries := h.entries.symm.trans h'.entries
    simp [Memory.above, ← hd] at hentries
  exact hno _ himage (hleg.remembered.gives (p := 1) rfl) (restores_wrapped henc hlen hrestores)

/-- However entries are encoded; in the wire format such a command has 4 GiB less 11 bytes. -/
theorem proposed_entry_not_recovered :
    (∀ (pb : Proto) (data : Bytes), (pb.marshal ⟨1, 1, data⟩).length + 1 = 2 ^ 32 →
      ∃ s n, Reaches (fileStep .single pb) (fun _ _ => True) Config.single.initFiles s ∧
        s.cluster.node 1 = some n ∧ n.memory = ⟨1, 1, [⟨1, 1, data⟩]⟩ ∧
        ¬ Restores pb (s.dirs 1) n.memory) ∧
    ∃ data : Bytes, data.length = 2 ^ 32 - 11 ∧
      (Proto.wire.marshal ⟨1, 1, data⟩).length + 1 = 2 ^ 32 := by
  obtain ⟨data, hdata⟩ : ∃ data : Bytes, data.length = 2 ^ 32 - 11 :=
    ⟨List.replicate (2 ^ 32 - 11) 0, List.length_replicate⟩
  have hmarshal : (Proto.wire.marshal ⟨1, 1, data⟩).length = data.length + 10 :=
    Wire.length_marshal_first (by omega) (by omega)
  exact ⟨fun pb data hdata => not_recovered hdata, data, hdata, by omega⟩

end KMC
