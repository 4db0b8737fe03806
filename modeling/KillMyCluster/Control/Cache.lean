import KillMyCluster.Lib.Trace
import Mathlib.Data.List.Basic
import Mathlib.Data.Int.Notation
import Mathlib.Data.Nat.Basic
import Mathlib.Order.Basic

/-! The control plane's snapshot cache. Any number of calls share one cached view, which is rebuilt
by one of them at a time; an action that changes the cluster invalidates it. Each call runs through
the critical sections of `snapMu` and `buildMu`, and reads whatever clock it finds. -/

namespace KMC.ControlPlane

open Trace

/-- A view of the cluster with its encoding. `born` counts the invalidations before its build
began. -/
structure View (α β : Type*) where
  snap : α
  data : Option β
  born : ℕ

/-- `Snapshot` and `SnapshotJSON`, `SnapshotFresh`, and `refreshInBackground`. -/
inductive Caller
  | snapshot
  | fresh
  | background
  deriving DecidableEq

inductive Phase (α β : Type*)
  | entered
  /-- In `refresh`, before `buildMu`. -/
  | waiting
  | locked
  /-- It has read the generation and will build. -/
  | starting (gen : ℕ)
  | building (gen born : ℕ)
  | built (gen : ℕ) (view : View α β)
  | unlocking (view : View α β)
  /-- The deferred part of `refreshInBackground`. -/
  | clearing (view : View α β)
  | returned (view : View α β)

/-- A call under way; `since` counts the invalidations before it. -/
structure Call (α β : Type*) where
  caller : Caller
  since : ℕ
  phase : Phase α β

/-- The fields of the engine that `snapMu` guards, and the holder of `buildMu`. -/
structure Cache (α β : Type*) where
  /-- `snapCached` and `snapJSON`; `none` until `snapHave`. -/
  snapCached : Option (View α β) := none
  /-- `none` is the zero time. -/
  snapAt : Option ℤ := none
  snapGen : ℕ := 0
  refreshing : Bool := false
  buildMu : Option ℕ := none

/-- `invalidations` counts the returned calls of `invalidateSnapshot`; the code has no such field,
only the generation that it raises. -/
structure CacheState (α β : Type*) where
  cache : Cache α β := {}
  calls : List (Call α β) := []
  invalidations : ℕ := 0

inductive Turn (α : Type*)
  | look (now : ℤ)
  | lock
  | check (now : ℤ)
  | start
  | finish (snap : α)
  | store (now : ℤ)
  | unlock
  | clear

inductive CacheAction (α : Type*)
  | call (fresh : Bool)
  | turn (i : ℕ) (x : Turn α)
  | invalidate

/-- In nanoseconds. -/
def snapshotMaxAge : ℤ := 500_000_000

def snapshotStaleLimit : ℤ := 2_000_000_000

variable {α β : Type*}

/-- The age of the cached view is below `limit`; that of the zero time is not. -/
def Cache.younger (m : Cache α β) (limit now : ℤ) : Bool :=
  match m.snapAt with
  | some stamp => now - stamp < limit
  | none => false

def Cache.invalidateSnapshot (m : Cache α β) : Cache α β :=
  { m with snapGen := m.snapGen + 1, snapAt := none }

/-- The phase that a critical section leads to after `n` invalidations, what it leaves in the cache,
and whether it starts a background rebuild. -/
def Call.turn (marshal : α → Option β) (i n : ℕ) (m : Cache α β) (c : Call α β) :
    Turn α → Option (Phase α β × Cache α β × Bool)
  | .look now => match c.phase, m.snapCached with
    | .entered, some view =>
      if m.younger snapshotMaxAge now then some (.returned view, m, false)
      else if m.younger snapshotStaleLimit now then
        some (.returned view, { m with refreshing := true }, !m.refreshing)
      else some (.waiting, m, false)
    | .entered, none => some (.waiting, m, false)
    | _, _ => none
  | .lock => match c.phase, m.buildMu with
    | .waiting, none => some (.locked, { m with buildMu := some i }, false)
    | _, _ => none
  | .check now => match c.phase, m.snapCached with
    | .locked, some view =>
      if m.younger snapshotMaxAge now then some (.unlocking view, m, false)
      else some (.starting m.snapGen, m, false)
    | .locked, none => some (.starting m.snapGen, m, false)
    | _, _ => none
  | .start => match c.phase with
    | .starting gen => some (.building gen n, m, false)
    | _ => none
  | .finish snap => match c.phase with
    | .building gen born => some (.built gen ⟨snap, marshal snap, born⟩, m, false)
    | _ => none
  | .store now => match c.phase with
    | .built gen view =>
      some (.unlocking view,
        { m with snapCached := some view, snapAt := if m.snapGen = gen then some now else none },
        false)
    | _ => none
  | .unlock => match c.phase with
    | .unlocking view =>
      some (if c.caller = .background then .clearing view else .returned view,
        { m with buildMu := none }, false)
    | _ => none
  | .clear => match c.phase with
    | .clearing view => some (.returned view, { m with refreshing := false }, false)
    | _ => none

def CacheState.begin (s : CacheState α β) (caller : Caller) : CacheState α β :=
  let phase := if caller = .snapshot then .entered else .waiting
  { s with calls := s.calls ++ [⟨caller, s.invalidations, phase⟩] }

def CacheState.put (s : CacheState α β) (i : ℕ) (c : Call α β) (m : Cache α β) (spawn : Bool) :
    CacheState α β :=
  let s := { s with cache := m, calls := s.calls.set i c }
  if spawn then s.begin .background else s

def cacheStep (marshal : α → Option β) (s : CacheState α β) :
    CacheAction α → Option (CacheState α β)
  | .call fresh => some (s.begin (if fresh then .fresh else .snapshot))
  | .turn i x => do
    let c ← s.calls[i]?
    let (phase, m, spawn) ← c.turn marshal i s.invalidations s.cache x
    return s.put i { c with phase := phase } m spawn
  | .invalidate => some
    { s with cache := s.cache.invalidateSnapshot, invalidations := s.invalidations + 1 }

/-! ## Views are as new as their calls -/

/-- A fresh stamp means that the cached view was begun after every invalidation. -/
def Cache.Current (n : ℕ) (m : Cache α β) : Prop :=
  m.snapAt.isSome → ∃ view, m.snapCached = some view ∧ n ≤ view.born

/-- After `n` invalidations, what a call has in hand is no older than the call, and the generation
it has read no newer than what it builds. -/
def Call.Sound (n : ℕ) (c : Call α β) : Prop :=
  c.since ≤ n ∧ match c.phase with
    | .entered | .waiting | .locked => True
    | .starting g => c.since ≤ g ∧ g ≤ n
    | .building g born => c.since ≤ born ∧ g ≤ born
    | .built g view => c.since ≤ view.born ∧ g ≤ view.born
    | .unlocking view | .clearing view | .returned view => c.since ≤ view.born

theorem Call.Sound.mono {c : Call α β} {n n' : ℕ} (h : c.Sound n) (hle : n ≤ n') :
    c.Sound n' := by
  obtain ⟨h1, h2⟩ := h
  refine ⟨h1.trans hle, ?_⟩
  cases hp : c.phase <;> simp only [hp] at h2 ⊢ <;> first | exact h2 | omega

theorem Cache.Current.younger {n : ℕ} {m : Cache α β} {view : View α β} {limit now : ℤ}
    (h : m.Current n) (hv : m.snapCached = some view) (hy : m.younger limit now = true) :
    n ≤ view.born := by
  have hat : m.snapAt.isSome := by
    unfold Cache.younger at hy
    split at hy
    · simp [*]
    · cases hy
  obtain ⟨view', hv', hle⟩ := h hat
  rw [hv] at hv'
  exact Option.some.inj hv' ▸ hle

variable {marshal : α → Option β} {i n : ℕ} {m m' : Cache α β} {c : Call α β} {x : Turn α}
  {phase : Phase α β} {spawn : Bool}

inductive Turned (marshal : α → Option β) (i n : ℕ) (m : Cache α β) (c : Call α β) :
    Phase α β → Cache α β → Bool → Prop
  | served {view : View α β} {now limit : ℤ} {r spawn : Bool} : c.phase = .entered →
      m.snapCached = some view → m.younger limit now = true →
      Turned marshal i n m c (.returned view) { m with refreshing := r } spawn
  | waits : c.phase = .entered → Turned marshal i n m c .waiting m false
  | locks : c.phase = .waiting → m.buildMu = none →
      Turned marshal i n m c .locked { m with buildMu := some i } false
  | shares {view : View α β} {now : ℤ} : c.phase = .locked → m.snapCached = some view →
      m.younger snapshotMaxAge now = true → Turned marshal i n m c (.unlocking view) m false
  | decides : c.phase = .locked → Turned marshal i n m c (.starting m.snapGen) m false
  | starts {gen : ℕ} : c.phase = .starting gen →
      Turned marshal i n m c (.building gen n) m false
  | finishes {gen born : ℕ} {snap : α} : c.phase = .building gen born →
      Turned marshal i n m c (.built gen ⟨snap, marshal snap, born⟩) m false
  | stores {gen : ℕ} {view : View α β} {now : ℤ} : c.phase = .built gen view →
      Turned marshal i n m c (.unlocking view)
        { m with snapCached := some view, snapAt := if m.snapGen = gen then some now else none }
        false
  | unlocks {view : View α β} : c.phase = .unlocking view →
      Turned marshal i n m c (if c.caller = .background then .clearing view else .returned view)
        { m with buildMu := none } false
  | clears {view : View α β} : c.phase = .clearing view →
      Turned marshal i n m c (.returned view) { m with refreshing := false } false

theorem Call.turn_cases (h : c.turn marshal i n m x = some (phase, m', spawn)) :
    Turned marshal i n m c phase m' spawn := by
  cases x with
  | look now =>
    simp only [Call.turn] at h
    split at h
    · rename_i view hp hv
      split at h
      · rename_i hy
        cases h
        exact .served hp hv hy
      split at h
      · rename_i hy
        cases h
        exact .served hp hv hy
      · cases h
        exact .waits hp
    · rename_i hp _
      cases h
      exact .waits hp
    · cases h
  | check now =>
    simp only [Call.turn] at h
    split at h
    · rename_i view hp hv
      split at h
      · rename_i hy
        cases h
        exact .shares hp hv hy
      · cases h
        exact .decides hp
    · rename_i hp _
      cases h
      exact .decides hp
    · cases h
  | lock =>
    simp only [Call.turn] at h
    split at h
    · rename_i hp hmu
      cases h
      exact .locks hp hmu
    · cases h
  | _ =>
    simp only [Call.turn] at h
    split at h
    · rename_i hp
      cases h
      first
        | exact .starts hp
        | exact .finishes hp
        | exact .stores hp
        | exact .unlocks hp
        | exact .clears hp
    · cases h

/-- A critical section keeps the cache current and its call sound. -/
theorem Turned.sound (h : Turned marshal i n m c phase m' spawn) (hgen : m.snapGen = n)
    (hm : m.Current n) (hc : c.Sound n) :
    m'.snapGen = n ∧ m'.Current n ∧ Call.Sound n { c with phase := phase } := by
  obtain ⟨hsince, hphase⟩ := hc
  cases h with
  | served _ hv hy => exact ⟨hgen, hm, hsince, hsince.trans (hm.younger hv hy)⟩
  | waits _ => exact ⟨hgen, hm, hsince, trivial⟩
  | locks _ _ => exact ⟨hgen, hm, hsince, trivial⟩
  | shares _ hv hy => exact ⟨hgen, hm, hsince, hsince.trans (hm.younger hv hy)⟩
  | decides _ => exact ⟨hgen, hm, hsince, hgen ▸ hsince, hgen.le⟩
  | starts hp =>
    simp only [hp] at hphase
    exact ⟨hgen, hm, hsince, hsince, hphase.2⟩
  | finishes hp =>
    simp only [hp] at hphase
    exact ⟨hgen, hm, hsince, hphase⟩
  | @stores gen view now hp =>
    simp only [hp] at hphase
    refine ⟨hgen, fun hat => ⟨view, rfl, ?_⟩, hsince, hphase.1⟩
    -- the stamp is set only if the generation is the one the build began with
    by_cases hsame : m.snapGen = gen
    · exact hgen ▸ hsame ▸ hphase.2
    · simp [hsame] at hat
  | unlocks hp =>
    simp only [hp] at hphase
    refine ⟨hgen, hm, hsince, ?_⟩
    by_cases hb : c.caller = .background
    · simpa [hb] using hphase
    · simpa [hb] using hphase
  | clears hp =>
    simp only [hp] at hphase
    exact ⟨hgen, hm, hsince, hphase⟩

/-! ## The build lock -/

/-- The call is between the lock and the unlock of `buildMu`. -/
def Phase.Holds : Phase α β → Prop
  | .locked | .starting _ | .building _ _ | .built _ _ | .unlocking _ => True
  | .entered | .waiting | .clearing _ | .returned _ => False

theorem Turned.holds (h : Turned marshal i n m c phase m' spawn)
    (hc : c.phase.Holds ↔ m.buildMu = some i) :
    (phase.Holds ↔ m'.buildMu = some i) ∧
      (m'.buildMu = m.buildMu ∨ m.buildMu = none ∧ m'.buildMu = some i ∨
        m.buildMu = some i ∧ m'.buildMu = none) := by
  cases h with
  | served hp _ _ | waits hp | clears hp =>
    rw [hp] at hc
    exact ⟨hc, .inl rfl⟩
  | locks _ hmu => exact ⟨⟨fun _ => rfl, fun _ => trivial⟩, .inr (.inl ⟨hmu, rfl⟩)⟩
  | unlocks hp =>
    rw [hp] at hc
    refine ⟨⟨fun hno => ?_, by simp⟩, .inr (.inr ⟨hc.mp trivial, rfl⟩)⟩
    split at hno <;> exact hno.elim
  | shares hp _ _ | decides hp | starts hp | finishes hp | stores hp =>
    rw [hp] at hc
    exact ⟨hc, .inl rfl⟩

/-! ## Runs -/

structure CacheState.Ok (s : CacheState α β) : Prop where
  gen : s.cache.snapGen = s.invalidations
  current : s.cache.Current s.invalidations
  sound : ∀ (i : ℕ) (c : Call α β), s.calls[i]? = some c → c.Sound s.invalidations
  holds : ∀ (i : ℕ) (c : Call α β), s.calls[i]? = some c →
    (c.phase.Holds ↔ s.cache.buildMu = some i)
  holder : ∀ i, s.cache.buildMu = some i → i < s.calls.length

theorem CacheState.Ok.begin {s : CacheState α β} (h : s.Ok) (caller : Caller) :
    (s.begin caller).Ok := by
  have hnew : ∀ (i : ℕ) (c : Call α β), (s.begin caller).calls[i]? = some c →
      s.calls[i]? = some c ∨ s.calls.length ≤ i ∧
        c = ⟨caller, s.invalidations, if caller = .snapshot then .entered else .waiting⟩ := by
    intro i c hc
    simp only [CacheState.begin, List.getElem?_append] at hc
    split at hc
    · exact .inl hc
    · rename_i hi
      rw [List.getElem?_singleton] at hc
      split at hc
      · exact .inr ⟨not_lt.mp hi, (Option.some.inj hc).symm⟩
      · cases hc
  refine ⟨h.gen, h.current, fun i c hc => ?_, fun i c hc => ?_, fun i hi => ?_⟩
  · rcases hnew i c hc with hc | ⟨-, rfl⟩
    · exact h.sound i c hc
    · refine ⟨le_rfl, ?_⟩
      by_cases hs : caller = .snapshot <;> simp [hs]
  · rcases hnew i c hc with hc | ⟨hi, rfl⟩
    · exact h.holds i c hc
    · have hno : (s.begin caller).cache.buildMu ≠ some i := fun hmu => by
        have := h.holder i hmu
        omega
      by_cases hs : caller = .snapshot <;> simpa [hs, Phase.Holds] using hno
  · have := h.holder i hi
    simp only [CacheState.begin, List.length_append, List.length_singleton]
    omega

theorem CacheState.Ok.step {s t : CacheState α β} {a : CacheAction α} (h : s.Ok)
    (hs : cacheStep marshal s a = some t) : t.Ok := by
  cases a with
  | call fresh =>
    obtain rfl := Option.some.inj hs
    exact h.begin _
  | invalidate =>
    obtain rfl := Option.some.inj hs
    refine ⟨congrArg (· + 1) h.gen, by simp [Cache.Current, Cache.invalidateSnapshot],
      fun i c hc => ?_, h.holds, h.holder⟩
    exact (h.sound i c hc).mono (Nat.le_succ _)
  | turn i x =>
    simp only [cacheStep, Option.bind_eq_bind, Option.bind_eq_some_iff, Option.pure_def,
      Option.some.injEq] at hs
    obtain ⟨c, hc, ⟨phase, m, spawn⟩, hturn, rfl⟩ := hs
    have hcase := Call.turn_cases hturn
    obtain ⟨hgen, hcur, hsound⟩ := hcase.sound h.gen h.current (h.sound i c hc)
    obtain ⟨hheld, hmu⟩ := hcase.holds (h.holds i c hc)
    have hok : CacheState.Ok { s with
        cache := m
        calls := s.calls.set i { c with phase := phase } } := by
      have hset : ∀ (j : ℕ) (d : Call α β), (s.calls.set i { c with phase := phase })[j]? = some d →
          j = i ∧ d = { c with phase := phase } ∨ j ≠ i ∧ s.calls[j]? = some d := by
        intro j d hd
        rw [List.getElem?_set] at hd
        split at hd
        · rename_i hij
          split at hd
          · exact .inl ⟨hij.symm, (Option.some.inj hd).symm⟩
          · cases hd
        · rename_i hij
          exact .inr ⟨fun hji => hij hji.symm, hd⟩
      refine ⟨hgen, hcur, fun j d hd => ?_, fun j d hd => ?_, fun j hj => ?_⟩
      · rcases hset j d hd with ⟨-, rfl⟩ | ⟨-, hd⟩
        · exact hsound
        · exact h.sound j d hd
      · rcases hset j d hd with ⟨rfl, rfl⟩ | ⟨hji, hd⟩
        · exact hheld
        · rw [h.holds j d hd]
          -- the lock of another call is neither taken nor given up
          rcases hmu with hmu | ⟨h1, h2⟩ | ⟨h1, h2⟩
          · simp only [hmu]
          · simp [h1, h2, hji.symm]
          · simp [h1, h2, hji.symm]
      · rw [List.length_set]
        have hi := (List.getElem?_eq_some_iff.mp hc).1
        rcases hmu with hmu | ⟨-, hmu⟩ | ⟨-, hmu⟩
        · exact h.holder j (hmu ▸ hj)
        · rw [show m.buildMu = some j from hj] at hmu
          exact Option.some.inj hmu ▸ hi
        · rw [show m.buildMu = some j from hj] at hmu
          cases hmu
    unfold CacheState.put
    simp only
    split
    · exact hok.begin _
    · exact hok

theorem cache_ok {s : CacheState α β} (h : Reaches (cacheStep marshal) (fun _ _ => True) {} s) :
    s.Ok := by
  refine h.invariant (fun _ _ _ hI _ hs => hI.step hs) ⟨rfl, ?_, ?_, ?_, ?_⟩
  · simp [Cache.Current]
  all_goals simp

/-! ## Calls return -/

structure Gets (marshal : α → Option β) (s t : CacheState α β) (i : ℕ) (c : Call α β)
    (phase : Phase α β) : Prop where
  reaches : Reaches (cacheStep marshal) (fun _ _ => True) s t
  call : t.calls[i]? = some { c with phase := phase }
  others : ∀ j, j ≠ i → t.calls[j]? = s.calls[j]?

section Progress

variable {s t : CacheState α β}

theorem Gets.of_turn (hc : s.calls[i]? = some c)
    (h : c.turn marshal i s.invalidations s.cache x = some (phase, m, false)) :
    Gets marshal s { s with cache := m, calls := s.calls.set i { c with phase := phase } } i c
      phase := by
  refine ⟨(Reaches.refl s).snoc (a := .turn i x) ?_ trivial, ?_, fun j hj => ?_⟩
  · simp [cacheStep, hc, h, CacheState.put]
  · have hi := (List.getElem?_eq_some_iff.mp hc).1
    simp [hi]
  · simp [hj.symm]

theorem Gets.trans {u : CacheState α β} {phase' : Phase α β} (h : Gets marshal s t i c phase)
    (h' : Gets marshal t u i { c with phase := phase } phase') : Gets marshal s u i c phase' :=
  ⟨h.reaches.trans h'.reaches, h'.call, fun j hj => (h'.others j hj).trans (h.others j hj)⟩

/-- The sections a call that holds the lock has before it. -/
def Phase.rank : Phase α β → ℕ
  | .locked => 5
  | .starting _ => 4
  | .building _ _ => 3
  | .built _ _ => 2
  | .unlocking _ => 1
  | .entered | .waiting | .clearing _ | .returned _ => 0

def Call.released (c : Call α β) (view : View α β) : Phase α β :=
  if c.caller = .background then .clearing view else .returned view

theorem Call.goes_on [Nonempty α] (marshal : α → Option β) (i n : ℕ) (m : Cache α β)
    (hh : c.phase.Holds) :
    ∃ x phase m', c.turn marshal i n m x = some (phase, m', false) ∧ phase.rank < c.phase.rank ∧
      (phase.Holds ∨ m'.buildMu = none ∧ ∃ view, phase = c.released view) := by
  cases hp : c.phase with
  | locked =>
    by_cases hy : ∃ view, m.snapCached = some view ∧ m.younger snapshotMaxAge 0 = true
    · obtain ⟨view, hv, hy⟩ := hy
      exact ⟨.check 0, .unlocking view, m, by simp [Call.turn, hp, hv, hy], by simp [Phase.rank],
        .inl trivial⟩
    · refine ⟨.check 0, .starting m.snapGen, m, ?_, by simp [Phase.rank], .inl trivial⟩
      cases hv : m.snapCached with
      | none => simp [Call.turn, hp, hv]
      | some view => simpa [Call.turn, hp, hv] using fun hyo => hy ⟨view, hv, hyo⟩
  | starting gen =>
    exact ⟨.start, .building gen n, m, by simp [Call.turn, hp], by simp [Phase.rank],
      .inl trivial⟩
  | building gen born =>
    obtain ⟨snap⟩ := ‹Nonempty α›
    exact ⟨.finish snap, .built gen ⟨snap, marshal snap, born⟩, m, by simp [Call.turn, hp],
      by simp [Phase.rank], .inl trivial⟩
  | built gen view =>
    exact ⟨.store 0, .unlocking view, _, by simp only [Call.turn, hp]; rfl, by simp [Phase.rank],
      .inl trivial⟩
  | unlocking view =>
    refine ⟨.unlock, c.released view, { m with buildMu := none }, ?_, ?_, .inr ⟨rfl, view, rfl⟩⟩
    · simp [Call.turn, hp, Call.released]
    · unfold Call.released
      split <;> simp [Phase.rank]
  | entered | waiting | clearing _ | returned _ => simp [hp, Phase.Holds] at hh

/-- A call that holds the lock goes on until it has given it up. -/
theorem Call.finishes [Nonempty α] (marshal : α → Option β) {k : ℕ} (hc : s.calls[i]? = some c)
    (hh : c.phase.Holds) (hk : c.phase.rank ≤ k) :
    ∃ t view, Gets marshal s t i c (c.released view) ∧ t.cache.buildMu = none := by
  induction k generalizing s c with
  | zero => cases hp : c.phase <;> simp [hp, Phase.rank, Phase.Holds] at hk hh
  | succ k ih =>
    obtain ⟨x, phase, m, hturn, hlt, hnext⟩ := c.goes_on marshal i s.invalidations s.cache hh
    have hg := Gets.of_turn hc hturn
    rcases hnext with hh' | ⟨hmu, view, rfl⟩
    · obtain ⟨t, view, ht, hmu⟩ := ih hg.call hh' (by simp only; omega)
      exact ⟨t, view, hg.trans ht, hmu⟩
    · exact ⟨_, view, hg, hmu⟩

/-- A call that waits for the lock gets it once its holder is done, and builds or shares a view. -/
theorem Call.waits_returns [Nonempty α] (marshal : α → Option β) (hok : s.Ok)
    (hc : s.calls[i]? = some c) (hp : c.phase = .waiting) :
    ∃ t view, Reaches (cacheStep marshal) (fun _ _ => True) s t ∧
      t.calls[i]? = some { c with phase := c.released view } := by
  -- the lock is free, or will be
  obtain ⟨u, hu, hcu, hmu⟩ : ∃ u, Reaches (cacheStep marshal) (fun _ _ => True) s u ∧
      u.calls[i]? = some c ∧ u.cache.buildMu = none := by
    cases hmu : s.cache.buildMu with
    | none => exact ⟨s, .refl s, hc, hmu⟩
    | some j =>
      have hd := List.getElem?_eq_getElem (hok.holder j hmu)
      have hij : i ≠ j := by
        rintro rfl
        have := (hok.holds i c hc).mpr hmu
        simp [hp, Phase.Holds] at this
      obtain ⟨t, view, ht, htmu⟩ := Call.finishes marshal hd ((hok.holds j _ hd).mpr hmu) le_rfl
      exact ⟨t, ht.reaches, (ht.others i hij).trans hc, htmu⟩
  have hlock : c.turn marshal i u.invalidations u.cache .lock =
      some (.locked, { u.cache with buildMu := some i }, false) := by
    simp [Call.turn, hp, hmu]
  have hg := Gets.of_turn hcu hlock
  obtain ⟨t, view, ht, -⟩ := Call.finishes marshal hg.call trivial le_rfl
  exact ⟨t, view, hu.trans (hg.trans ht).reaches, (hg.trans ht).call⟩

theorem Call.released_returns (marshal : α → Option β) {view : View α β}
    (hc : s.calls[i]? = some { c with phase := c.released view }) :
    ∃ t, Reaches (cacheStep marshal) (fun _ _ => True) s t ∧
      t.calls[i]? = some { c with phase := .returned view } := by
  unfold Call.released at hc
  split at hc
  · have hclear : Call.turn marshal i s.invalidations s.cache
        { c with phase := .clearing view } .clear =
          some (.returned view, { s.cache with refreshing := false }, false) := rfl
    have hg := Gets.of_turn hc hclear
    exact ⟨_, hg.reaches, hg.call⟩
  · exact ⟨s, .refl s, hc⟩

theorem Call.entered_looks (marshal : α → Option β) (hc : s.calls[i]? = some c)
    (hp : c.phase = .entered) :
    ∃ t phase, cacheStep marshal s (.turn i (.look 0)) = some t ∧
      t.calls[i]? = some { c with phase := phase } ∧
      (phase = .waiting ∨ ∃ view, phase = .returned view) := by
  have hi := (List.getElem?_eq_some_iff.mp hc).1
  obtain ⟨phase, m, spawn, hturn, hphase⟩ : ∃ phase m spawn,
      c.turn marshal i s.invalidations s.cache (.look 0) = some (phase, m, spawn) ∧
      (phase = .waiting ∨ ∃ view, phase = .returned view) := by
    cases hv : s.cache.snapCached with
    | none => exact ⟨.waiting, _, _, by simp only [Call.turn, hp, hv]; rfl, .inl rfl⟩
    | some view =>
      simp only [Call.turn, hp, hv]
      split
      · exact ⟨_, _, _, rfl, .inr ⟨view, rfl⟩⟩
      split
      · exact ⟨_, _, _, rfl, .inr ⟨view, rfl⟩⟩
      · exact ⟨_, _, _, rfl, .inl rfl⟩
  refine ⟨s.put i { c with phase := phase } m spawn, phase, by simp [cacheStep, hc, hturn], ?_,
    hphase⟩
  have hset : (s.calls.set i { c with phase := phase })[i]? = some { c with phase := phase } := by
    simp [hi]
  unfold CacheState.put
  simp only
  split
  · simp only [CacheState.begin]
    rw [List.getElem?_append_left (by simpa using hi), hset]
  · exact hset

theorem Call.returns [Nonempty α] (marshal : α → Option β) (hok : s.Ok)
    (hc : s.calls[i]? = some c) :
    ∃ t view, Reaches (cacheStep marshal) (fun _ _ => True) s t ∧
      t.calls[i]? = some { c with phase := .returned view } := by
  have hwait : ∀ {s : CacheState α β} {c : Call α β}, s.Ok → s.calls[i]? = some c →
      c.phase = .waiting → ∃ t view, Reaches (cacheStep marshal) (fun _ _ => True) s t ∧
        t.calls[i]? = some { c with phase := .returned view } := by
    intro s c hok hc hp
    obtain ⟨t, view, ht, hct⟩ := Call.waits_returns marshal hok hc hp
    obtain ⟨u, hu, hcu⟩ := Call.released_returns marshal hct
    exact ⟨u, view, ht.trans hu, hcu⟩
  cases hp : c.phase with
  | entered =>
    obtain ⟨u, phase, hu, hcu, hphase⟩ := Call.entered_looks marshal hc hp
    have hsu : Reaches (cacheStep marshal) (fun _ _ => True) s u := (Reaches.refl s).snoc hu trivial
    rcases hphase with rfl | ⟨view, rfl⟩
    · obtain ⟨t, view, ht, hct⟩ := hwait (hok.step hu) hcu rfl
      exact ⟨t, view, hsu.trans ht, hct⟩
    · exact ⟨u, view, hsu, hcu⟩
  | waiting => exact hwait hok hc hp
  | clearing view =>
    have hclear : c.turn marshal i s.invalidations s.cache .clear =
        some (.returned view, { s.cache with refreshing := false }, false) := by
      simp [Call.turn, hp]
    have hg := Gets.of_turn hc hclear
    exact ⟨_, view, hg.reaches, hg.call⟩
  | returned view =>
    refine ⟨s, view, .refl s, ?_⟩
    rw [← hp]
    exact hc
  | locked | starting _ | building _ _ | built _ _ | unlocking _ =>
    have hh : c.phase.Holds := by simp [hp, Phase.Holds]
    obtain ⟨t, view, ht, -⟩ := Call.finishes marshal hc hh le_rfl
    obtain ⟨u, hu, hcu⟩ := Call.released_returns marshal ht.call
    exact ⟨u, view, ht.reaches.trans hu, hcu⟩

end Progress

/-- No call gets a view whose build began before an invalidation that the call came after; no two
builds overlap; and every call can return. -/
theorem snapshot_includes_actions [Nonempty α] {s : CacheState α β}
    (h : Reaches (cacheStep marshal) (fun _ _ => True) {} s) :
    (∀ (i : ℕ) (c : Call α β) view, s.calls[i]? = some c → c.phase = .returned view →
      c.since ≤ view.born) ∧
    (∀ (i j : ℕ) (c d : Call α β) gen born gen' born', s.calls[i]? = some c →
      s.calls[j]? = some d → c.phase = .building gen born → d.phase = .building gen' born' →
      i = j) ∧
    ∀ (i : ℕ) (c : Call α β), s.calls[i]? = some c →
      ∃ t view, Reaches (cacheStep marshal) (fun _ _ => True) s t ∧
        t.calls[i]? = some { c with phase := .returned view } := by
  have hok := cache_ok h
  refine ⟨fun i c view hc hp => ?_, fun i j c d _ _ _ _ hc hd hp hp' => ?_, fun i c hc => ?_⟩
  · have := (hok.sound i c hc).2
    simpa only [hp] using this
  · have h1 := (hok.holds i c hc).mp (by simp [hp, Phase.Holds])
    have h2 := (hok.holds j d hd).mp (by simp [hp', Phase.Holds])
    exact Option.mem_unique h1 h2
  · exact Call.returns marshal hok hc

/-- A view is invalidated while it is built; the call that comes after gets another one. -/
theorem snapshot_includes_actions_rebuild : ∃ (s : CacheState ℕ ℕ) (view : View ℕ ℕ),
    Reaches (cacheStep some) (fun _ _ => True) {} s ∧
    s.calls[1]? = some ⟨.snapshot, 1, .returned view⟩ ∧ view.snap = 8 ∧ 1 ≤ view.born := by
  have hs := Reaches.of_exec (cacheStep (some : ℕ → Option ℕ)) (fun _ _ => True) {}
    [.call false, .turn 0 (.look 0), .turn 0 .lock, .turn 0 (.check 0), .turn 0 .start, .invalidate,
      .turn 0 (.finish 7), .call false, .turn 1 (.look 0), .turn 0 (.store 0), .turn 0 .unlock,
      .turn 1 .lock, .turn 1 (.check 1), .turn 1 .start, .turn 1 (.finish 8), .turn 1 (.store 1),
      .turn 1 .unlock]
    (.of_forall (fun _ _ _ => trivial) _) rfl
  exact ⟨_, _, hs, rfl, rfl, (snapshot_includes_actions hs).1 1 _ _ rfl rfl⟩

end KMC.ControlPlane
