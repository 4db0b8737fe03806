import Mathlib.Data.List.Nodup

/-! Linearizability. A history tells when operations were called and when they returned. It is
linearizable if the operations could have been made one at a time, with the results they had, in
an order that keeps to what had returned when what was called.

On an object that is kept in a log, an operation that may change the object takes effect at an
entry, and one that only looks at it sees the state between two entries. If no operation's place
is outside the time of its call, the places are such an order. -/

namespace Linear

variable {I Op Res S : Type*}

inductive Event (I Op Res : Type*)
  | call (i : I) (op : Op)
  | ret (i : I) (res : Res)

/-- The state an object begins in, and which results and next states an operation may have. -/
structure Object (S Op Res : Type*) where
  init : S
  next : S → Op → Res → S → Prop

structure Done (I Op Res : Type*) where
  id : I
  op : Op
  res : Res

inductive Object.Run (O : Object S Op Res) : S → List (Done I Op Res) → S → Prop
  | nil (s : S) : Run O s [] s
  | cons {s u t : S} {d : Done I Op Res} {ds : List (Done I Op Res)} :
      O.next s d.op d.res u → Run O u ds t → Run O s (d :: ds) t

/-- Operation `i` had returned when `j` was called. -/
def Before (h : List (Event I Op Res)) (i j : I) : Prop :=
  ∃ (m m' : ℕ) (res : Res) (op : Op),
    m < m' ∧ h[m]? = some (.ret i res) ∧ h[m']? = some (.call j op)

structure Linearizes (O : Object S Op Res) (h : List (Event I Op Res)) (ds : List (Done I Op Res)) :
    Prop where
  legal : ∃ s, O.Run O.init ds s
  once : (ds.map Done.id).Nodup
  called : ∀ d ∈ ds, .call d.id d.op ∈ h
  returned : ∀ i res, .ret i res ∈ h → ∃ d ∈ ds, d.id = i ∧ d.res = res
  order : ds.Pairwise fun d d' => ¬ Before h d'.id d.id

def Linearizable (O : Object S Op Res) (h : List (Event I Op Res)) : Prop :=
  ∃ ds, Linearizes O h ds

theorem Object.Run.append {O : Object S Op Res} {s u t : S} {ds ds' : List (Done I Op Res)}
    (h : O.Run s ds u) (h' : O.Run u ds' t) : O.Run s (ds ++ ds') t := by
  induction h with
  | nil => exact h'
  | cons hn _ ih => exact .cons hn (ih h')

/-- Operations that only look. -/
theorem Object.Run.looks {O : Object S Op Res} {s : S} {ds : List (Done I Op Res)}
    (h : ∀ d ∈ ds, O.next s d.op d.res s) : O.Run s ds s := by
  induction ds with
  | nil => exact .nil s
  | cons d ds ih =>
    obtain ⟨hd, hds⟩ := List.forall_mem_cons.mp h
    exact .cons hd (ih hds)

/-! ## Histories -/

/-- Operations are called once, and return once and after they were called. -/
structure Sound (h : List (Event I Op Res)) : Prop where
  called : ∀ {m m' : ℕ} {i : I} {op op' : Op}, h[m]? = some (.call i op) →
    h[m']? = some (.call i op') → m = m'
  returned : ∀ {m m' : ℕ} {i : I} {res res' : Res}, h[m]? = some (.ret i res) →
    h[m']? = some (.ret i res') → m = m'
  first : ∀ {m : ℕ} {i : I} {res : Res}, h[m]? = some (.ret i res) →
    ∃ m' < m, ∃ op, h[m']? = some (.call i op)

section Histories

variable {h : List (Event I Op Res)} {i j : I} {op : Op} {res : Res}

theorem sound_nil : Sound ([] : List (Event I Op Res)) := ⟨by simp, by simp, by simp⟩

theorem getElem_snoc {α : Type*} {l : List α} {x y : α} {m : ℕ} (h : (l ++ [x])[m]? = some y) :
    l[m]? = some y ∨ m = l.length ∧ y = x := by
  rcases Nat.lt_trichotomy m l.length with hlt | rfl | hgt
  · exact .inl (List.getElem?_append_left hlt ▸ h)
  · rw [List.getElem?_concat_length] at h
    exact .inr ⟨rfl, (Option.some.inj h).symm⟩
  · rw [List.getElem?_eq_none (by simp; omega)] at h
    cases h

theorem Sound.call (hs : Sound h) (hnew : ∀ op', .call i op' ∉ h) :
    Sound (h ++ [.call i op]) where
  called h1 h2 := by
    rcases getElem_snoc h1 with h3 | ⟨rfl, he⟩ <;> rcases getElem_snoc h2 with h4 | ⟨rfl, he'⟩
    · exact hs.called h3 h4
    · obtain ⟨rfl, -⟩ := Event.call.inj he'
      exact absurd (List.mem_of_getElem? h3) (hnew _)
    · obtain ⟨rfl, -⟩ := Event.call.inj he
      exact absurd (List.mem_of_getElem? h4) (hnew _)
    · rfl
  returned h1 h2 := by
    rcases getElem_snoc h1 with h1 | ⟨-, he⟩
    · rcases getElem_snoc h2 with h2 | ⟨-, he⟩
      · exact hs.returned h1 h2
      · cases he
    · cases he
  first h1 := by
    rcases getElem_snoc h1 with h1 | ⟨-, he⟩
    · obtain ⟨m', hm, op, h2⟩ := hs.first h1
      exact ⟨m', hm, op, List.getElem?_append_left (List.getElem?_eq_some_iff.mp h2).1 ▸ h2⟩
    · cases he

theorem Sound.ret (hs : Sound h) (hcall : .call i op ∈ h) (hnew : ∀ res', .ret i res' ∉ h) :
    Sound (h ++ [.ret i res]) where
  called h1 h2 := by
    rcases getElem_snoc h1 with h1 | ⟨-, he⟩
    · rcases getElem_snoc h2 with h2 | ⟨-, he⟩
      · exact hs.called h1 h2
      · cases he
    · cases he
  returned h1 h2 := by
    rcases getElem_snoc h1 with h3 | ⟨rfl, he⟩ <;> rcases getElem_snoc h2 with h4 | ⟨rfl, he'⟩
    · exact hs.returned h3 h4
    · obtain ⟨rfl, -⟩ := Event.ret.inj he'
      exact absurd (List.mem_of_getElem? h3) (hnew _)
    · obtain ⟨rfl, -⟩ := Event.ret.inj he
      exact absurd (List.mem_of_getElem? h4) (hnew _)
    · rfl
  first h1 := by
    rcases getElem_snoc h1 with h1 | ⟨rfl, he⟩
    · obtain ⟨m', hm, op, h2⟩ := hs.first h1
      exact ⟨m', hm, op, List.getElem?_append_left (List.getElem?_eq_some_iff.mp h2).1 ▸ h2⟩
    · obtain ⟨rfl, -⟩ := Event.ret.inj he
      obtain ⟨m', hm'⟩ := List.mem_iff_getElem?.mp hcall
      have hlt := (List.getElem?_eq_some_iff.mp hm').1
      exact ⟨m', hlt, op, List.getElem?_append_left hlt ▸ hm'⟩

/-- The operation that returned first was not called after the other one returned. -/
theorem Sound.not_before {m m' : ℕ} {res' : Res} (hs : Sound h) (hlt : m < m')
    (hi : h[m]? = some (.ret i res)) (hj : h[m']? = some (.ret j res')) : ¬ Before h j i := by
  rintro ⟨l, l', _, _, hll, hret, hcall⟩
  obtain rfl := hs.returned hret hj
  obtain ⟨l₀, hl₀, _, hcall₀⟩ := hs.first hi
  obtain rfl := hs.called hcall hcall₀
  omega

structure Tells (h : List (Event I Op Res)) (called : I → Option Op) (returned : I → Option Res) :
    Prop where
  sound : Sound h
  calls : ∀ i op, .call i op ∈ h ↔ called i = some op
  returns : ∀ i res, .ret i res ∈ h ↔ returned i = some res

section Tells

variable {called called' : I → Option Op} {returned returned' : I → Option Res}

theorem tells_nil : Tells ([] : List (Event I Op Res)) (fun _ => none) fun _ => none :=
  ⟨sound_nil, by simp, by simp⟩

theorem Tells.congr (hr : Tells h called returned) (hc : ∀ j, called' j = called j)
    (hret : ∀ j, returned' j = returned j) : Tells h called' returned' :=
  ⟨hr.sound, fun j op => by rw [hc, hr.calls], fun j res => by rw [hret, hr.returns]⟩

theorem Tells.call (hr : Tells h called returned) (hi : called i = none)
    (hi' : called' i = some op) (hc : ∀ j, j ≠ i → called' j = called j)
    (hret : ∀ j, returned' j = returned j) :
    Tells (h ++ [.call i op]) called' returned' where
  sound := by
    refine hr.sound.call fun op' hop => ?_
    rw [hr.calls, hi] at hop
    cases hop
  calls j op' := by
    rw [List.mem_append, List.mem_singleton, Event.call.injEq, hr.calls]
    by_cases hj : j = i
    · subst hj
      simp [hi, hi', eq_comm]
    · simp [hc j hj, hj]
  returns j res := by
    rw [List.mem_append, List.mem_singleton, hret, hr.returns]
    simp

theorem Tells.ret (hr : Tells h called returned) (hi : returned i = none)
    (hi' : returned' i = some res) (hret : ∀ j, j ≠ i → returned' j = returned j)
    (hc : ∀ j, called' j = called j) (hop : called i ≠ none) :
    Tells (h ++ [.ret i res]) called' returned' where
  sound := by
    obtain ⟨op, hop⟩ := Option.ne_none_iff_exists'.mp hop
    refine hr.sound.ret ((hr.calls i op).mpr hop) fun res' hres => ?_
    rw [hr.returns, hi] at hres
    cases hres
  calls j op := by
    rw [List.mem_append, List.mem_singleton, hc, hr.calls]
    simp
  returns j res' := by
    rw [List.mem_append, List.mem_singleton, Event.ret.injEq, hr.returns]
    by_cases hj : j = i
    · subst hj
      simp [hi, hi', eq_comm]
    · simp [hret j hj, hj]

/-- An operation that had returned by some event, and one that was called after it. -/
theorem Tells.before (hr : Tells h called returned) (hij : Before h i j) :
    ∃ m ≤ h.length, (∃ res, .ret i res ∈ h.take m) ∧ ∀ op, .call j op ∉ h.take m := by
  obtain ⟨m, m', res, op, hlt, hret, hcall⟩ := hij
  refine ⟨m + 1, (List.getElem?_eq_some_iff.mp hret).1, ⟨res, ?_⟩, fun op' hop => ?_⟩
  · exact List.mem_of_getElem? (i := m) (by
      rw [List.getElem?_take_of_lt (Nat.lt_succ_self m), hret])
  · obtain ⟨l, hl⟩ := List.mem_iff_getElem?.mp hop
    have hlm : l < m + 1 := by
      have := (List.getElem?_eq_some_iff.mp hl).1
      rw [List.length_take] at this
      omega
    rw [List.getElem?_take_of_lt hlm] at hl
    have := hr.sound.called hcall hl
    omega

end Tells

end Histories

/-! ## Places in a log -/

section Places

/-- Where the effect of an operation is, or what an operation sees: `k` is the end of its place. -/
def Ends (effect : ℕ → Option (Done I Op Res)) (view : I → Option (ℕ × Op)) (i : I) (k : ℕ) :
    Prop :=
  (∃ j d, effect j = some d ∧ d.id = i ∧ k = j + 1) ∨ ∃ op, view i = some (k, op)

def Starts (effect : ℕ → Option (Done I Op Res)) (view : I → Option (ℕ × Op)) (i : I) (k : ℕ) :
    Prop :=
  (∃ d, effect k = some d ∧ d.id = i) ∨ ∃ op, view i = some (k, op)

/-- The places of operations in a log of `size` entries. Entry `k` is the effect of an operation
or leaves the state as it is; an operation with a view `(k, op)` sees the state before entry
`k`. -/
structure OnLog (O : Object S Op Res) (h : List (Event I Op Res)) where
  size : ℕ
  state : ℕ → S
  effect : ℕ → Option (Done I Op Res)
  view : I → Option (ℕ × Op)
  sound : Sound h
  init : state 0 = O.init
  moves : ∀ k d, effect k = some d → k < size ∧ O.next (state k) d.op d.res (state (k + 1))
  rests : ∀ k < size, effect k = none → state (k + 1) = state k
  sees : ∀ i res k op, .ret i res ∈ h → view i = some (k, op) →
    k ≤ size ∧ O.next (state k) op res (state k) ∧ .call i op ∈ h
  called : ∀ k d, effect k = some d → .call d.id d.op ∈ h ∧ view d.id = none
  distinct : ∀ j k d d', effect j = some d → effect k = some d' → d.id = d'.id → j = k
  returned : ∀ i res, .ret i res ∈ h → view i = none →
    ∃ k d, effect k = some d ∧ d.id = i ∧ d.res = res
  timely : ∀ i j, Before h i j → ∀ k k', Ends effect view i k → Starts effect view j k' → k ≤ k'

variable {O : Object S Op Res} {h : List (Event I Op Res)}

def OnLog.look (L : OnLog O h) (k : ℕ) : Event I Op Res → Option (Done I Op Res)
  | .call _ _ => none
  | .ret i res => (L.view i).bind fun v => if v.1 = k then some ⟨i, v.2, res⟩ else none

def OnLog.looks (L : OnLog O h) (k : ℕ) : List (Done I Op Res) := h.filterMap (L.look k)

def OnLog.order (L : OnLog O h) : ℕ → List (Done I Op Res)
  | 0 => L.looks 0
  | k + 1 => L.order k ++ ((L.effect k).toList ++ L.looks (k + 1))

variable (L : OnLog O h) {d d' : Done I Op Res} {k : ℕ}

theorem OnLog.look_some {e : Event I Op Res} (he : L.look k e = some d) :
    e = .ret d.id d.res ∧ L.view d.id = some (k, d.op) := by
  cases e with
  | call => cases he
  | ret i res =>
    obtain ⟨⟨k', op⟩, hv, he⟩ := Option.bind_eq_some_iff.mp he
    split at he
    · rename_i hk
      obtain rfl := Option.some.inj he
      exact ⟨rfl, hk ▸ hv⟩
    · cases he

theorem OnLog.mem_looks : d ∈ L.looks k ↔ .ret d.id d.res ∈ h ∧ L.view d.id = some (k, d.op) := by
  constructor
  · intro hd
    obtain ⟨e, he, hl⟩ := List.mem_filterMap.mp hd
    obtain ⟨rfl, hv⟩ := L.look_some hl
    exact ⟨he, hv⟩
  · rintro ⟨he, hv⟩
    exact List.mem_filterMap.mpr ⟨_, he, by simp [look, hv]⟩

theorem OnLog.mem_order {n : ℕ} :
    d ∈ L.order n ↔ (∃ k < n, L.effect k = some d) ∨ ∃ k ≤ n, d ∈ L.looks k := by
  induction n with
  | zero => simp [order]
  | succ n ih =>
    simp only [order, List.mem_append, ih, Option.mem_toList]
    constructor
    · rintro ((⟨k, hk, he⟩ | ⟨k, hk, hl⟩) | he | hl)
      · exact .inl ⟨k, by omega, he⟩
      · exact .inr ⟨k, by omega, hl⟩
      · exact .inl ⟨n, by omega, he⟩
      · exact .inr ⟨n + 1, Nat.le_refl _, hl⟩
    · rintro (⟨k, hk, he⟩ | ⟨k, hk, hl⟩)
      · rcases Nat.lt_succ_iff_lt_or_eq.mp hk with hk | rfl
        · exact .inl (.inl ⟨k, hk, he⟩)
        · exact .inr (.inl he)
      · rcases Nat.le_succ_iff.mp hk with hk | rfl
        · exact .inl (.inr ⟨k, hk, hl⟩)
        · exact .inr (.inr hl)

theorem OnLog.run {n : ℕ} (hn : n ≤ L.size) : O.Run O.init (L.order n) (L.state n) := by
  have hlooks : ∀ k, O.Run (L.state k) (L.looks k) (L.state k) := by
    refine fun k => .looks fun d hd => ?_
    obtain ⟨hret, hv⟩ := L.mem_looks.mp hd
    exact (L.sees _ _ _ _ hret hv).2.1
  induction n with
  | zero => exact L.init ▸ hlooks 0
  | succ n ih =>
    refine (ih (by omega)).append (.append ?_ (hlooks (n + 1)))
    cases he : L.effect n with
    | none => exact L.rests n (by omega) he ▸ .nil _
    | some d => exact .cons (L.moves n d he).2 (.nil _)

/-- What holds along the order: of the operations up to an entry and those that come next, of an
effect and the looks behind it, and of the looks at one state. -/
theorem OnLog.order_pairwise {R : Done I Op Res → Done I Op Res → Prop}
    (hnext : ∀ n d d', d ∈ L.order n → L.effect n = some d' ∨ d' ∈ L.looks (n + 1) → R d d')
    (hbehind : ∀ n d d', L.effect n = some d → d' ∈ L.looks (n + 1) → R d d')
    (hlooks : ∀ k, (L.looks k).Pairwise R) (n : ℕ) : (L.order n).Pairwise R := by
  induction n with
  | zero => exact hlooks 0
  | succ n ih =>
    refine List.pairwise_append.mpr ⟨ih, List.pairwise_append.mpr ⟨?_, hlooks _, ?_⟩, ?_⟩
    · cases L.effect n <;> simp
    · exact fun d hd d' hd' => hbehind n d d' (by simpa using hd) hd'
    · intro d hd d' hd'
      refine hnext n d d' hd ?_
      simpa using hd'

theorem OnLog.looks_pairwise {R : Done I Op Res → Done I Op Res → Prop}
    (hR : ∀ (m m' : ℕ) (d d' : Done I Op Res), m < m' → h[m]? = some (.ret d.id d.res) →
      h[m']? = some (.ret d'.id d'.res) → R d d') (k : ℕ) : (L.looks k).Pairwise R := by
  refine List.pairwise_filterMap.mpr (List.pairwise_iff_getElem.mpr ?_)
  intro m m' hm hm' hlt d hd d' hd'
  refine hR m m' d d' hlt ?_ ?_
  · rw [List.getElem?_eq_getElem hm, (L.look_some hd).1]
  · rw [List.getElem?_eq_getElem hm', (L.look_some hd').1]

theorem OnLog.order_nodup (n : ℕ) : ((L.order n).map Done.id).Nodup := by
  have hview : ∀ {k k' d d'}, L.effect k = some d → d' ∈ L.looks k' → d.id ≠ d'.id := by
    intro k k' d d' he hl heq
    have := (L.called k d he).2
    rw [heq, (L.mem_looks.mp hl).2] at this
    cases this
  refine List.pairwise_map.mpr (L.order_pairwise (fun n d d' hd hd' => ?_)
    (fun n d d' he hl => hview he hl) (L.looks_pairwise fun m m' d d' hlt hd hd' heq => ?_) n)
  · rcases L.mem_order.mp hd with ⟨k, hk, he⟩ | ⟨k, hk, hl⟩ <;> rcases hd' with he' | hl'
    · intro heq
      have := L.distinct k n d d' he he' heq
      omega
    · exact hview he hl'
    · exact (hview he' hl).symm
    · intro heq
      have := (L.mem_looks.mp hl).2
      rw [heq, (L.mem_looks.mp hl').2] at this
      obtain ⟨hkn, -⟩ := Prod.mk.inj (Option.some.inj this)
      omega
  · rw [heq] at hd
    have := L.sound.returned hd hd'
    omega

theorem OnLog.order_timely (n : ℕ) : (L.order n).Pairwise fun d d' => ¬ Before h d'.id d.id := by
  have hplaces : ∀ {d d' : Done I Op Res} {k k' : ℕ}, Starts L.effect L.view d.id k →
      Ends L.effect L.view d'.id k' → k < k' → ¬ Before h d'.id d.id := by
    intro d d' k k' hstart hend hlt hbefore
    have := L.timely _ _ hbefore _ _ hend hstart
    omega
  have hends : ∀ {n d}, L.effect n = some d ∨ d ∈ L.looks (n + 1) →
      Ends L.effect L.view d.id (n + 1) := by
    rintro n d (he | hl)
    · exact .inl ⟨n, d, he, rfl, rfl⟩
    · exact .inr ⟨_, (L.mem_looks.mp hl).2⟩
  refine L.order_pairwise (fun n d d' hd hd' => ?_) (fun n d d' he hl => ?_)
    (L.looks_pairwise fun m m' d d' hlt hd hd' => L.sound.not_before hlt hd hd') n
  · rcases L.mem_order.mp hd with ⟨k, hk, he⟩ | ⟨k, hk, hl⟩
    · exact hplaces (.inl ⟨d, he, rfl⟩) (hends hd') (by omega)
    · exact hplaces (.inr ⟨_, (L.mem_looks.mp hl).2⟩) (hends hd') (by omega)
  · exact hplaces (.inl ⟨d, he, rfl⟩) (hends (.inr hl)) (by omega)

/-- Places that lie within the times of the calls linearize a history. -/
theorem OnLog.linearizable (L : OnLog O h) : Linearizable O h := by
  refine ⟨L.order L.size, ⟨_, L.run (Nat.le_refl _)⟩, L.order_nodup _, fun d hd => ?_,
    fun i res hret => ?_, L.order_timely _⟩
  · rcases L.mem_order.mp hd with ⟨k, -, he⟩ | ⟨k, -, hl⟩
    · exact (L.called k d he).1
    · obtain ⟨hret, hv⟩ := L.mem_looks.mp hl
      exact (L.sees _ _ _ _ hret hv).2.2
  · cases hv : L.view i with
    | none =>
      obtain ⟨k, d, he, hid, hres⟩ := L.returned i res hret hv
      exact ⟨d, L.mem_order.mpr (.inl ⟨k, (L.moves k d he).1, he⟩), hid, hres⟩
    | some v =>
      obtain ⟨k, op⟩ := v
      have hk := (L.sees i res k op hret hv).1
      exact ⟨⟨i, op, res⟩, L.mem_order.mpr (.inr ⟨k, hk, L.mem_looks.mpr ⟨hret, hv⟩⟩), rfl, rfl⟩

end Places

end Linear
