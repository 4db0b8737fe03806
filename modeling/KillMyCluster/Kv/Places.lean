import KillMyCluster.Kv.Get
import KillMyCluster.Kv.Once
import KillMyCluster.Kv.Order

/-! The commands of a run in the order in which they take effect. All that was applied anywhere lies
in one history of committed entries without gaps. A call has its place there: the first of its
entries. What comes after that, it finds in the table of results. If those places, and those of the
states that reads have seen, are within the times of the calls, the calls are linearizable. -/

namespace KMC

open LeaderLog Linear Trace

variable {cfg : KvConfig} {g g' : Ghost} {s t : KvState} {a : KvAction} {p i j k : ℕ}
  {outs outs' : List Outcome} {o : Outcome} {es es' : List LogEntry} {cmds cmds' : List Command}
  {e e' : LogEntry} {x : KvCall} {m : Machine} {res : ApplyResult}

/-! ## No gaps -/

def Covered (outs : List Outcome) (i : ℕ) : Prop :=
  ∀ k, 1 ≤ k → k ≤ i → ∃ o ∈ outs, o.entry.index = k

theorem covered_zero (outs : List Outcome) : Covered outs 0 := by
  intro k h1 h0
  omega

theorem Covered.mono (h : Covered outs i) (ho : outs ⊆ outs') : Covered outs' i := by
  intro k h1 hk
  obtain ⟨o, hm, rfl⟩ := h k h1 hk
  exact ⟨o, ho hm, rfl⟩

theorem Covered.succ (h : Covered outs i) (ho : o ∈ outs) (hidx : o.entry.index = i + 1) :
    Covered outs (i + 1) := by
  intro k h1 hk
  rcases hk.lt_or_eq with hlt | rfl
  · exact h k h1 (by omega)
  · exact ⟨o, ho, hidx⟩

/-- What was applied has no gaps, and no machine or image is ahead of it. -/
structure Gapless (s : KvState) : Prop where
  outcomes : ∀ o ∈ s.outcomes, Covered s.outcomes o.entry.index
  machines : ∀ p, Covered s.outcomes (lastSent (s.given p))
  images : Imaged (fun snap => Covered s.outcomes snap.index) s.raft

theorem gapless_init (cfg : KvConfig) : Gapless cfg.init where
  outcomes := by simp [KvConfig.init]
  machines _ := covered_zero _
  images := imaged_init cfg.raft

theorem Gapless.step (h : Gapless s) (hr : Refines cfg g s) (hf : Fed cfg s) (hk : KvSim cfg g s)
    (hs : kvStep cfg s a = some t) : Gapless t := by
  have hsub := kvStep_outcomes_subset hs
  have himages := h.images.imp fun snap hsnap => Covered.mono hsnap hsub
  refine ⟨fun o ho => ?_, fun p => ?_, ?_⟩
  · rcases kvStep_outcomes hs with hout | ⟨p, n, e, cmd, -, -, hmsg, -, hout⟩
    · exact hout ▸ h.outcomes o (hout ▸ ho)
    rw [hout] at ho
    rcases List.mem_append.mp ho with hold | hnew
    · exact (h.outcomes o hold).mono hsub
    · obtain rfl := List.mem_singleton.mp hnew
      obtain ⟨hidx, -⟩ := hk.command_committed hmsg
      exact hidx ▸ ((h.machines p).mono hsub).succ (hout ▸ ho) hidx
  · have hold := (h.machines p).mono hsub
    rcases hf.given_eq hs p with ⟨msg, hgiven, -, hmsg, -, -, hout⟩ | ⟨hgiven, -⟩ | ⟨hgiven, -⟩
    · rw [hgiven, lastSent_concat]
      cases msg with
      | snapshot snap =>
        exact (himages.servers p).msgs snap (List.mem_append_left _ (List.mem_of_getElem? hmsg))
      | command e =>
        obtain ⟨hidx, -⟩ := hk.command_committed hmsg
        obtain ⟨o, ho, rfl⟩ := hout e rfl
        rw [ApplyMsg.index, hidx]
        exact hold.succ ho hidx
    · exact hgiven ▸ hold
    · exact hgiven ▸ covered_zero _
  · rcases kvStep_snapshot hs with heq | ⟨y, hy, hsnap⟩
    · exact heq ▸ himages
    · refine himages.step hy fun p index data io heq term => ?_
      obtain ⟨happ, -⟩ := hsnap p index data io heq
      rw [hr.busy p index (by rw [happ]; rfl)]
      exact (h.machines p).mono hsub

/-! ## The history of a run -/

structure Whole (g : Ghost) (outs : List Outcome) (es : List LogEntry) (cmds : List Command) :
    Prop extends History g outs es cmds where
  numbered : ∀ k e, es[k]? = some e → e.index = k + 1
  covers : ∀ o ∈ outs, o.entry.index ≤ es.length

theorem History.numbered (h : History g outs es cmds) (hi : cfg.raft.Inv g)
    (hex : ∀ o ∈ outs, o.Explained g outs) (hc : Covered outs es.length)
    (he : es[k]? = some e) : e.index = k + 1 := by
  have hk := (List.getElem?_eq_some_iff.mp he).1
  obtain ⟨o, ho, hidx⟩ := hc (k + 1) (by omega) hk
  obtain ⟨es', cmds', cmd, hh, hlen, -⟩ := hex o ho
  obtain ⟨T, hT⟩ := h.committed
  obtain ⟨T', hT'⟩ := hh.committed
  obtain rfl : es'.length = k := by omega
  rw [hi.committed_unique hT hT' he List.getElem?_concat_length, hidx]

theorem Refines.whole (h : Refines cfg g s) (hgap : Gapless s) (hi : cfg.raft.Inv g) :
    ∃ es cmds, Whole g s.outcomes es cmds := by
  -- the history of the outcome with the greatest index
  have key : ∀ l ⊆ s.outcomes, ∃ es cmds, History g s.outcomes es cmds ∧
      Covered s.outcomes es.length ∧ ∀ o ∈ l, o.entry.index ≤ es.length := by
    intro l
    induction l with
    | nil => exact fun _ => ⟨[], [], history_nil g _, covered_zero _, by simp⟩
    | cons o l ih =>
      intro hl
      obtain ⟨es, cmds, hh, hc, hle⟩ := ih fun y hy => hl (List.mem_cons_of_mem _ hy)
      by_cases hlt : o.entry.index ≤ es.length
      · exact ⟨es, cmds, hh, hc, List.forall_mem_cons.mpr ⟨hlt, hle⟩⟩
      · have ho := hl (List.mem_cons_self ..)
        obtain ⟨es', cmds', cmd, hh', hlen, -⟩ := h.outcomes o ho
        have hlen' : (es' ++ [o.entry]).length = o.entry.index := by simp [hlen]
        refine ⟨_, _, hh', hlen' ▸ hgap.outcomes o ho, ?_⟩
        rw [hlen']
        exact List.forall_mem_cons.mpr ⟨le_rfl, fun y hy => (hle y hy).trans (by omega)⟩
  obtain ⟨es, cmds, hh, hc, hle⟩ := key s.outcomes (List.Subset.refl _)
  exact ⟨es, cmds, hh, fun k e => hh.numbered hi h.outcomes hc, hle⟩

/-- A history that is not longer is a part of it. -/
theorem History.part (h : History g outs es cmds) (h' : History g outs' es' cmds')
    (hi : cfg.raft.Inv g) (hle : es'.length ≤ es.length) :
    es' <+: es ∧ cmds' = cmds.take es'.length := by
  obtain ⟨T, hT⟩ := h.committed
  obtain ⟨T', hT'⟩ := h'.committed
  have hpre : es' <+: es := by
    rcases hi.committed_comparable hT hT' with hp | hp
    · exact (hp.eq_of_length (le_antisymm hp.length_le hle)) ▸ List.prefix_refl _
    · exact hp
  have hinj : Function.Injective (List.map (@Except.ok String Command)) :=
    List.map_injective_iff.mpr fun _ _ => Except.ok.inj
  refine ⟨hpre, hinj ?_⟩
  rw [← h'.decoded, List.map_take, ← h.decoded, ← List.map_take,
    ← List.prefix_iff_eq_take.mp hpre]

theorem Built.like_stateAt (hw : History g outs es cmds) (hi : cfg.raft.Inv g)
    (hb : Built g outs' m i) (hle : i ≤ es.length) : m.Like (Machine.stateAt cmds i) := by
  obtain ⟨es', cmds', hh, rfl, hl, -⟩ := hb
  obtain ⟨-, hcmds⟩ := hw.part hh hi hle
  rwa [hcmds] at hl

theorem Whole.covered_le (hw : Whole g outs es cmds) (hc : Covered outs i) : i ≤ es.length := by
  rcases Nat.eq_zero_or_pos i with rfl | hpos
  · exact Nat.zero_le _
  · obtain ⟨o, ho, rfl⟩ := hc i hpos le_rfl
    exact hw.covers o ho

/-- What was applied, in the whole history. -/
theorem Whole.outcome (hw : Whole g outs es cmds) (hi : cfg.raft.Inv g) (ho : o ∈ outs)
    (hex : o.Explained g outs) : ∃ k cmd, o.entry.index = k + 1 ∧ es[k]? = some o.entry ∧
      cmds[k]? = some cmd ∧ o.before.Like (Machine.stateAt cmds k) ∧
      o.before.apply cmd = (o.after, o.result) := by
  obtain ⟨es', cmds', cmd, hh, hlen, hl, happ⟩ := hex
  have hle : (es' ++ [o.entry]).length ≤ es.length := by
    have := hw.covers o ho
    simpa [hlen] using this
  obtain ⟨hpre, hcmds⟩ := hw.toHistory.part hh hi hle
  have hlens : es'.length = cmds'.length := by simpa using hh.length_eq
  refine ⟨es'.length, cmd, hlen.symm, prefix_getElem hpre List.getElem?_concat_length, ?_, ?_, happ⟩
  · have hget : (cmds' ++ [cmd])[es'.length]? = some cmd := by
      rw [hlens, List.getElem?_concat_length]
    rw [hcmds] at hget
    exact prefix_getElem (List.take_prefix _ _) hget
  · have htake : cmds.take es'.length = cmds' := by
      have := congrArg (List.take cmds'.length) hcmds
      rw [List.take_left, List.take_take, min_eq_left (by simp [hlens])] at this
      rw [hlens, ← this]
    rwa [Machine.stateAt, htake]

/-! ## The entries of a call -/

/-- Results up to nil and empty slices and to the mark of a duplicate. -/
def ApplyResult.plain (res : ApplyResult) : ApplyResult := { res.norm with duplicate := false }

theorem ApplyResult.plain_congr {res' : ApplyResult} (h : res.norm = res'.norm) :
    res.plain = res'.plain := by
  rw [ApplyResult.plain, h, ApplyResult.plain]

/-- What a command leaves in the table is its result. -/
theorem Machine.get_applied_plain {cmd : Command} (ht : cmd.tracked = true)
    (h : (m.apply cmd).1.Recent cmd.dedupKey) : ∃ prev,
      (m.apply cmd).1.applied.get cmd.dedupKey = some prev ∧
        (m.apply cmd).2.plain = prev.plain := by
  rcases m.apply_cases cmd with ⟨prev, -, hp, ha⟩ | ⟨-, ha⟩
  · rw [ha]
    exact ⟨prev, hp, rfl⟩
  · exact ⟨_, get_ran ht h (by rw [ha]; exact execute_duplicate _ _), rfl⟩

theorem History.call_at (h : History g outs es cmds) (hfits : x.cmd.Fits) (he : es[k]? = some e)
    (hd : e.data = x.cmd.encode) : cmds[k]? = some x.cmd.norm := by
  obtain ⟨cmd, hc, hdec⟩ := h.command_at he
  rw [hd, Command.decode_encode hfits] at hdec
  rw [hc, ← Except.ok.inj hdec]

/-- A later copy of a guarded call changes nothing and has the result of the earlier one. -/
theorem KvCall.Guarded.found (hg : x.Guarded s) (h : History g s.outcomes es cmds)
    (he : es[i]? = some e) (he' : es[j]? = some e') (hd : e.data = x.cmd.encode)
    (hd' : e'.data = x.cmd.encode) (hij : i < j) :
    ((Machine.stateAt cmds j).apply x.cmd.norm).1 = Machine.stateAt cmds j ∧
      ((Machine.stateAt cmds j).apply x.cmd.norm).2.plain =
        ((Machine.stateAt cmds i).apply x.cmd.norm).2.plain := by
  have hi := h.call_at hg.fits he hd
  have hj := (List.getElem?_eq_some_iff.mp (h.call_at hg.fits he' hd')).1
  have htracked : x.cmd.norm.tracked = true := by
    simp [Command.norm, Command.tracked, hg.client, hg.request]
  have hrecent : ∀ j, (Machine.stateAt cmds j).Recent x.cmd.norm.dedupKey := by
    refine fun j => Machine.recent_stateAt hg.bound fun l y _ hy hc => ?_
    obtain ⟨e, he, hde⟩ := h.entry_at hy
    obtain ⟨o, ho, rfl⟩ := h.applied e he
    exact hg.window o ho y hde hc
  obtain ⟨prev, hprev, hres⟩ : ∃ prev, (Machine.stateAt cmds (i + 1)).applied.get
      x.cmd.norm.dedupKey = some prev ∧
        ((Machine.stateAt cmds i).apply x.cmd.norm).2.plain = prev.plain := by
    have hr := hrecent (i + 1)
    rw [Machine.stateAt_succ hi] at hr ⊢
    exact Machine.get_applied_plain htracked hr
  have hkept := Machine.stateAt_keeps hij hj.le (fun l _ => hrecent l) hprev
  rw [Machine.apply_hit htracked hkept, hres]
  exact ⟨rfl, rfl⟩

def KvCall.EntryAt (x : KvCall) (es : List LogEntry) (k : ℕ) : Prop :=
  ∃ e, es[k]? = some e ∧ e ∈ x.proposed

def KvCall.FirstAt (x : KvCall) (es : List LogEntry) (k : ℕ) : Prop :=
  x.EntryAt es k ∧ ∀ i < k, ¬ x.EntryAt es i

theorem KvCall.EntryAt.first (h : x.EntryAt es k) : ∃ i ≤ k, x.FirstAt es i := by
  classical
  exact ⟨Nat.find ⟨k, h⟩, Nat.find_min' _ h, Nat.find_spec ⟨k, h⟩, fun i hi => Nat.find_min _ hi⟩

theorem KvCall.FirstAt.unique (h : x.FirstAt es i) (h' : x.FirstAt es j) : i = j := by
  rcases lt_trichotomy i j with hlt | heq | hgt
  · exact absurd h.1 (h'.2 i hlt)
  · exact heq
  · exact absurd h'.1 (h.2 j hgt)

/-- Calls that were proposed again are guarded, and commands survive their encoding. -/
def KvCall.Safe (s : KvState) (x : KvCall) : Prop :=
  x.cmd.Fits ∧ (1 < x.proposed.length → x.Guarded s)

/-- Two entries of one call. -/
theorem Whole.copies (hw : Whole g s.outcomes es cmds) (hdata : ∀ e ∈ x.proposed,
      e.data = x.cmd.encode) (hsafe : x.Safe s) (hi : x.EntryAt es i) (hj : x.EntryAt es j)
    (hij : i < j) : ((Machine.stateAt cmds j).apply x.cmd.norm).1 = Machine.stateAt cmds j ∧
      ((Machine.stateAt cmds j).apply x.cmd.norm).2.plain =
        ((Machine.stateAt cmds i).apply x.cmd.norm).2.plain := by
  obtain ⟨e, he, hmem⟩ := hi
  obtain ⟨e', he', hmem'⟩ := hj
  have hne : e ≠ e' := by
    rintro rfl
    have h1 := hw.numbered i e he
    have h2 := hw.numbered j e he'
    omega
  exact (hsafe.2 (one_lt_length hmem hmem' hne)).found hw.toHistory he he' (hdata e hmem)
    (hdata e' hmem') hij

/-- The effect of a call is at its first entry. -/
theorem Whole.moves (hw : Whole g s.outcomes es cmds) (hdata : ∀ e ∈ x.proposed,
      e.data = x.cmd.encode) (hsafe : x.Safe s) (h : x.EntryAt es k) :
    Machine.stateAt cmds (k + 1) = ((Machine.stateAt cmds k).apply x.cmd.norm).1 := by
  obtain ⟨e, he, hmem⟩ := h
  exact Machine.stateAt_succ (hw.toHistory.call_at hsafe.1 he (hdata e hmem))

theorem Whole.rests (hw : Whole g s.outcomes es cmds) (hdata : ∀ e ∈ x.proposed,
      e.data = x.cmd.encode) (hsafe : x.Safe s) (h : x.EntryAt es k) (hnot : ¬ x.FirstAt es k) :
    Machine.stateAt cmds (k + 1) = Machine.stateAt cmds k := by
  obtain ⟨i, hik, hfirst⟩ := h.first
  have hlt : i < k := lt_of_le_of_ne hik fun heq => hnot (heq ▸ hfirst)
  rw [hw.moves hdata hsafe h]
  exact (hw.copies hdata hsafe hfirst.1 h hlt).1

/-- Wherever an entry of a call was applied, the result is that at its first entry. -/
theorem Whole.result (hw : Whole g s.outcomes es cmds) (hi : cfg.raft.Inv g)
    (hex : ∀ o ∈ s.outcomes, o.Explained g s.outcomes) (hdata : ∀ e ∈ x.proposed,
      e.data = x.cmd.encode) (hsafe : x.Safe s) (ho : o ∈ s.outcomes)
    (hmem : o.entry ∈ x.proposed) : ∃ k, x.FirstAt es k ∧
      o.result.plain = ((Machine.stateAt cmds k).apply x.cmd.norm).2.plain := by
  obtain ⟨j, cmd, hidx, hj, hcmd, hlike, happ⟩ := hw.outcome hi ho (hex o ho)
  have hcall := hw.toHistory.call_at hsafe.1 hj (hdata _ hmem)
  obtain rfl := Option.mem_unique hcmd hcall
  have hat : x.EntryAt es j := ⟨o.entry, hj, hmem⟩
  have hres : o.result.plain = ((Machine.stateAt cmds j).apply x.cmd.norm).2.plain := by
    refine ApplyResult.plain_congr ?_
    rw [← (hlike.apply x.cmd.norm).2, happ]
  obtain ⟨k, hkj, hfirst⟩ := hat.first
  refine ⟨k, hfirst, ?_⟩
  rcases hkj.lt_or_eq with hlt | rfl
  · rw [hres, (hw.copies hdata hsafe hfirst.1 hat hlt).2]
  · exact hres

/-! ## The sequential store -/

def storeObject : Object Machine Operation ApplyResult where
  init := newMachine
  next m op res m' := match op with
    | .write cmd => m' = (m.apply cmd.norm).1 ∧ res.plain = (m.apply cmd.norm).2.plain
    | .read key => m' = m ∧ res.plain = (m.answer key).plain

theorem Machine.Like.answer {m' : Machine} (h : m.Like m') (key : Bytes) :
    (m.answer key).plain = (m'.answer key).plain := by
  have hget : (m.data.get key).map Slice.norm = (m'.data.get key).map Slice.norm := by
    rw [← Table.get_mapVals, ← Table.get_mapVals, h.data]
  cases hm : m.data.get key with
  | none =>
    have hm' : m'.data.get key = none := by simpa [hm] using hget.symm
    simp [Machine.answer, Machine.get, hm, hm']
  | some v =>
    rw [hm] at hget
    obtain ⟨v', hm', hv⟩ := Option.map_eq_some_iff.mp hget.symm
    simp [Machine.answer, Machine.get, ApplyResult.plain, ApplyResult.norm, hm, hm', hv]

/-! ## Places -/

section Places

variable {I : Type} {h : List (Event I Operation ApplyResult)}

/-- The operations of a history in the history of the machine: what was proposed for an operation
that writes, and the place of what an operation that reads has seen. -/
structure Placement (g : Ghost) (s : KvState) (es : List LogEntry)
    (h : List (Event I Operation ApplyResult)) where
  called : I → Option Operation
  returned : I → Option ApplyResult
  calls : I → Option KvCall
  view : I → Option (ℕ × Bytes)
  tells : Tells h called returned
  writes : ∀ i x, calls i = some x → called i = some (.write x.cmd) ∧ view i = none ∧ x.Safe s ∧
    ∀ e ∈ x.proposed, e.data = x.cmd.encode
  sole : ∀ i i' x x' e, calls i = some x → calls i' = some x' → e ∈ x.proposed →
    e ∈ x'.proposed → i = i'
  owned : ∀ o ∈ s.outcomes, ∃ i x, calls i = some x ∧ o.entry ∈ x.proposed
  answered : ∀ i x res, calls i = some x → returned i = some res →
    ∃ o ∈ s.outcomes, o.entry ∈ x.proposed ∧ res.plain = o.result.plain
  reads : ∀ i p key, view i = some (p, key) → called i = some (.read key) ∧
    Covered s.outcomes p ∧ ∃ m res, Built g s.outcomes m p ∧ returned i = some res ∧
      res.plain = (m.answer key).plain
  placed : ∀ i, returned i ≠ none → calls i ≠ none ∨ view i ≠ none
  timely : ∀ i j, Before h i j → ∃ n,
    (∀ x, calls i = some x → ∃ k < n, x.EntryAt es k) ∧ (∀ p key, view i = some (p, key) → p ≤ n) ∧
    (∀ x k, calls j = some x → x.EntryAt es k → n ≤ k) ∧ ∀ p key, view j = some (p, key) → n ≤ p

namespace Placement

variable {d : Done I Operation ApplyResult}

open Classical in
/-- The write whose effect is at entry `k` of the history, with the result it returned or would
return. -/
noncomputable def effect (P : Placement g s es h) (cmds : List Command) (k : ℕ) :
    Option (Done I Operation ApplyResult) :=
  if h : ∃ y : I × KvCall, P.calls y.1 = some y.2 ∧ y.2.FirstAt es k then
    some ⟨h.choose.1, .write h.choose.2.cmd, (P.returned h.choose.1).getD
      ((Machine.stateAt cmds k).apply h.choose.2.cmd.norm).2⟩
  else none

variable (P : Placement g s es h)

theorem effect_some (hd : P.effect cmds k = some d) : ∃ i x, P.calls i = some x ∧ x.FirstAt es k ∧
    d = ⟨i, .write x.cmd,
      (P.returned i).getD ((Machine.stateAt cmds k).apply x.cmd.norm).2⟩ := by
  unfold effect at hd
  split at hd
  · rename_i hy
    exact ⟨_, _, hy.choose_spec.1, hy.choose_spec.2, (Option.some.inj hd).symm⟩
  · cases hd

theorem effect_first (cmds : List Command) {i : I} (hx : P.calls i = some x)
    (hf : x.FirstAt es k) : ∃ d, P.effect cmds k = some d ∧ d.id = i := by
  have hex : ∃ y : I × KvCall, P.calls y.1 = some y.2 ∧ y.2.FirstAt es k := ⟨(i, x), hx, hf⟩
  obtain ⟨e, he, hmem⟩ := hf.1
  obtain ⟨e', he', hmem'⟩ := hex.choose_spec.2.1
  obtain rfl := Option.mem_unique he he'
  unfold effect
  rw [dif_pos hex]
  exact ⟨_, rfl, P.sole _ _ _ _ e hex.choose_spec.1 hx hmem' hmem⟩

section Whole

variable (hw : Whole g s.outcomes es cmds) (hi : cfg.raft.Inv g)
  (hex : ∀ o ∈ s.outcomes, o.Explained g s.outcomes)

include hw hi hex

/-- A write that has returned has a place, and the result that belongs to it. -/
theorem result {i : I} (hx : P.calls i = some x) (hret : P.returned i = some res) :
    ∃ k, x.FirstAt es k ∧
      res.plain = ((Machine.stateAt cmds k).apply x.cmd.norm).2.plain := by
  obtain ⟨-, -, hsafe, hdata⟩ := P.writes i x hx
  obtain ⟨o, ho, hmem, hres⟩ := P.answered i x res hx hret
  obtain ⟨k, hf, hk⟩ := hw.result hi hex hdata hsafe ho hmem
  exact ⟨k, hf, hres.trans hk⟩

theorem moves (hd : P.effect cmds k = some d) : k < es.length ∧
    storeObject.next (Machine.stateAt cmds k) d.op d.res (Machine.stateAt cmds (k + 1)) := by
  obtain ⟨i, x, hx, hf, rfl⟩ := P.effect_some hd
  obtain ⟨-, -, hsafe, hdata⟩ := P.writes i x hx
  obtain ⟨e, he, -⟩ := hf.1
  refine ⟨(List.getElem?_eq_some_iff.mp he).1, hw.moves hdata hsafe hf.1, ?_⟩
  cases hret : P.returned i with
  | none => rfl
  | some res =>
    obtain ⟨k', hf', hres⟩ := P.result hw hi hex hx hret
    rw [hf.unique hf']
    exact hres

omit hi hex in
/-- An entry that is no effect is a later one of its operation. -/
theorem rests (hk : k < es.length) (hnone : P.effect cmds k = none) :
    Machine.stateAt cmds (k + 1) = Machine.stateAt cmds k := by
  obtain ⟨o, ho, heq⟩ := hw.applied _ (List.getElem_mem hk)
  obtain ⟨i, x, hx, hmem⟩ := P.owned o ho
  obtain ⟨-, -, hsafe, hdata⟩ := P.writes i x hx
  have hat : x.EntryAt es k := ⟨_, List.getElem?_eq_getElem hk, heq ▸ hmem⟩
  refine hw.rests hdata hsafe hat fun hf => ?_
  obtain ⟨d, hd, -⟩ := P.effect_first cmds hx hf
  rw [hnone] at hd
  cases hd

omit hex in
theorem sees {i : I} {key : Bytes} (hret : .ret i res ∈ h) (hview : P.view i = some (k, key)) :
    k ≤ es.length ∧
      storeObject.next (Machine.stateAt cmds k) (.read key) res (Machine.stateAt cmds k) ∧
      .call i (.read key) ∈ h := by
  obtain ⟨hcall, hcov, m, res', hm, hres', hplain⟩ := P.reads i k key hview
  rw [P.tells.returns, hres'] at hret
  obtain rfl := Option.some.inj hret
  have hle := hw.covered_le hcov
  have hlike := hm.like_stateAt hw.toHistory hi hle
  exact ⟨hle, ⟨rfl, hplain.trans (hlike.answer key)⟩, (P.tells.calls _ _).mpr hcall⟩

theorem returns {i : I} (hret : .ret i res ∈ h) (hview : P.view i = none) :
    ∃ k d, P.effect cmds k = some d ∧ d.id = i ∧ d.res = res := by
  rw [P.tells.returns] at hret
  have hcalls := (P.placed i (by simp [hret])).resolve_right (absurd hview ·)
  obtain ⟨x, hx⟩ := Option.ne_none_iff_exists'.mp hcalls
  obtain ⟨k, hf, -⟩ := P.result hw hi hex hx hret
  obtain ⟨d, hd, hid⟩ := P.effect_first cmds hx hf
  refine ⟨k, d, hd, hid, ?_⟩
  obtain ⟨i', x', -, -, rfl⟩ := P.effect_some hd
  obtain rfl : i' = i := hid
  exact congrArg (Option.getD · _) hret

end Whole

def looks (i : I) : Option (ℕ × Operation) := (P.view i).map fun v => (v.1, .read v.2)

theorem looks_some {i : I} {op : Operation} (hv : P.looks i = some (k, op)) :
    ∃ key, P.view i = some (k, key) ∧ op = .read key := by
  obtain ⟨⟨p, key⟩, hview, heq⟩ := Option.map_eq_some_iff.mp hv
  obtain ⟨rfl, rfl⟩ := Prod.mk.inj heq
  exact ⟨key, hview, rfl⟩

theorem within {i j : I} {k' : ℕ} (hij : Before h i j) (hi : Ends (P.effect cmds) P.looks i k)
    (hj : Starts (P.effect cmds) P.looks j k') : k ≤ k' := by
  obtain ⟨n, hcall, hview, hcall', hview'⟩ := P.timely i j hij
  have hend : k ≤ n := by
    rcases hi with ⟨m, d, hd, rfl, rfl⟩ | ⟨op, hv⟩
    · obtain ⟨i', x, hx, hf, rfl⟩ := P.effect_some hd
      obtain ⟨l, hl, hat⟩ := hcall x hx
      -- the entry that answered it is not before its first one
      have : m ≤ l := not_lt.mp fun hlt => hf.2 l hlt hat
      omega
    · obtain ⟨key, hv, -⟩ := P.looks_some hv
      exact hview k key hv
  have hstart : n ≤ k' := by
    rcases hj with ⟨d, hd, rfl⟩ | ⟨op, hv⟩
    · obtain ⟨i', x, hx, hf, rfl⟩ := P.effect_some hd
      exact hcall' x k' hx hf.1
    · obtain ⟨key, hv, -⟩ := P.looks_some hv
      exact hview' k' key hv
  exact hend.trans hstart

theorem linearizable (P : Placement g s es h) (hw : Whole g s.outcomes es cmds)
    (hi : cfg.raft.Inv g) (hex : ∀ o ∈ s.outcomes, o.Explained g s.outcomes) :
    Linearizable storeObject h := by
  refine OnLog.linearizable
    { size := es.length
      state := Machine.stateAt cmds
      effect := P.effect cmds
      view := P.looks
      sound := P.tells.sound
      init := rfl
      moves := fun k d => P.moves hw hi hex
      rests := fun k => P.rests hw
      sees := fun i res k op hret hv => ?_
      called := fun k d hd => ?_
      distinct := fun j k d d' hd hd' hid => ?_
      returned := fun i res hret hv => P.returns hw hi hex hret (Option.map_eq_none_iff.mp hv)
      timely := fun i j hij k k' => P.within hij }
  · obtain ⟨key, hview, rfl⟩ := P.looks_some hv
    exact P.sees hw hi hret hview
  · obtain ⟨i, x, hx, hf, rfl⟩ := P.effect_some hd
    obtain ⟨hcall, hview, -⟩ := P.writes i x hx
    exact ⟨(P.tells.calls _ _).mpr hcall, Option.map_eq_none_iff.mpr hview⟩
  · obtain ⟨i, x, hx, hf, rfl⟩ := P.effect_some hd
    obtain ⟨i', x', hx', hf', rfl⟩ := P.effect_some hd'
    obtain rfl : i = i' := hid
    obtain rfl := Option.mem_unique hx hx'
    exact hf.unique hf'

end Placement

end Places

end KMC
