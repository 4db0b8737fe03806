import Mathlib.Data.Finmap

/-! Finite maps with the operations of a Go map: reading, setting and deleting a key, the number
of keys, and loops over all of them. Equal maps are equal terms, whatever order they were filled
in. -/

/-- A map from `K` to `V` with finitely many keys. -/
abbrev Table (K V : Type*) := Finmap fun _ : K => V

namespace Table

variable {K V W X : Type*} [DecidableEq K] {t u : Table K V} {k k' : K} {v : V}

def get (t : Table K V) (k : K) : Option V := Finmap.lookup k t

def set (t : Table K V) (k : K) (v : V) : Table K V := Finmap.insert k v t

def delete (t : Table K V) (k : K) : Table K V := Finmap.erase k t

omit [DecidableEq K] in
def size (t : Table K V) : ℕ := Multiset.card t.entries

/-- A loop over the map that deletes the keys `p` picks. The order of the keys does not matter. -/
def prune (t : Table K V) (p : K → Bool) : Table K V :=
  Finmap.foldl (fun acc k _ => if p k then acc.delete k else acc)
    (fun d k₁ _ k₂ _ => by
      simp only [delete]
      split <;> split <;> first | rfl | exact Finmap.erase_erase) t t

omit [DecidableEq K] in
theorem nodupKeys_map (f : V → W) {s : Multiset (Sigma fun _ : K => V)} (h : s.NodupKeys) :
    (s.map fun x => (⟨x.1, f x.2⟩ : Sigma fun _ : K => W)).NodupKeys := by
  have hkeys : (s.map fun x => (⟨x.1, f x.2⟩ : Sigma fun _ : K => W)).keys = s.keys := by
    simp [Multiset.keys]
  rw [← Multiset.nodup_keys] at h ⊢
  rwa [hkeys]

omit [DecidableEq K] in
def mapVals (f : V → W) (t : Table K V) : Table K W :=
  ⟨t.entries.map fun x => ⟨x.1, f x.2⟩, nodupKeys_map f t.nodupKeys⟩

/-! ## Reading -/

@[simp] theorem get_empty (k : K) : get (∅ : Table K V) k = none := Finmap.lookup_empty k

theorem get_set (t : Table K V) (k k' : K) (v : V) :
    (t.set k v).get k' = if k' = k then some v else t.get k' := by
  unfold get set
  split
  · rename_i h
    subst h
    exact Finmap.lookup_insert t
  · rename_i h
    exact Finmap.lookup_insert_of_ne t h

theorem get_delete (t : Table K V) (k k' : K) :
    (t.delete k).get k' = if k' = k then none else t.get k' := by
  unfold get delete
  split
  · rename_i h
    subst h
    exact Finmap.lookup_erase _ t
  · rename_i h
    exact Finmap.lookup_erase_ne h

theorem get_of_delete {v : V} (h : (t.delete k).get k' = some v) : t.get k' = some v := by
  rw [get_delete] at h
  split at h
  · cases h
  · exact h

@[simp] theorem get_set_self (t : Table K V) (k : K) (v : V) : (t.set k v).get k = some v := by
  rw [get_set, if_pos rfl]

theorem get_set_ne (t : Table K V) (v : V) (h : k' ≠ k) : (t.set k v).get k' = t.get k' := by
  rw [get_set, if_neg h]

theorem ext_get (h : ∀ k, t.get k = u.get k) : t = u := Finmap.ext_lookup h

theorem foldl_delete (p : K → Bool) (l : List (Sigma fun _ : K => V)) (acc : Table K V) (k : K) :
    (l.foldl (fun acc x => if p x.1 then acc.delete x.1 else acc) acc).get k =
      if p k = true ∧ k ∈ l.keys then none else acc.get k := by
  induction l generalizing acc with
  | nil => simp
  | cons x l ih =>
    rw [List.foldl_cons, ih, List.keys_cons]
    by_cases hx : p x.1
    · rw [if_pos hx, get_delete]
      by_cases hk : k = x.1
      · subst hk
        simp [hx]
      · simp [hk]
    · rw [if_neg hx]
      by_cases hk : k = x.1
      · subst hk
        simp [hx]
      · simp [hk]

theorem get_prune (t : Table K V) (p : K → Bool) (k : K) :
    (t.prune p).get k = if p k = true then none else t.get k := by
  induction t using Finmap.induction_on with
  | H s =>
    have h := foldl_delete p s.entries (AList.toFinmap s) k
    have hfold : prune (AList.toFinmap s) p =
        s.entries.foldl (fun acc x => if p x.1 then delete acc x.1 else acc) (AList.toFinmap s) :=
      rfl
    change (prune (AList.toFinmap s) p).get k = _
    rw [hfold, h]
    by_cases hk : k ∈ s.entries.keys
    · simp [hk]
    · have hnone : get (AList.toFinmap s) k = none := Finmap.lookup_eq_none.mpr hk
      simp [hk, hnone]

theorem get_mapVals (f : V → W) (t : Table K V) (k : K) :
    (t.mapVals f).get k = (t.get k).map f := by
  induction t using Finmap.induction_on with
  | H s =>
    change List.dlookup k (s.entries.map fun x => (⟨x.1, f x.2⟩ : Sigma fun _ : K => W)) =
      (List.dlookup k s.entries).map f
    generalize s.entries = l
    induction l with
    | nil => rfl
    | cons x l ih =>
      obtain ⟨k', v⟩ := x
      by_cases hk : k = k'
      · subst hk
        simp
      · simp [hk, ih]

omit [DecidableEq K] in
@[simp] theorem size_mapVals (f : V → W) (t : Table K V) : (t.mapVals f).size = t.size := by
  simp [size, mapVals]

/-! ## Keys -/

theorem mem_keys : k ∈ Finmap.keys t ↔ ∃ v, t.get k = some v := by
  rw [Finmap.mem_keys, ← Finmap.lookup_isSome, Option.isSome_iff_exists]
  rfl

omit [DecidableEq K] in
theorem size_eq_card (t : Table K V) : t.size = (Finmap.keys t).card := by
  simp [size, Finmap.keys, Multiset.keys, Finset.card]

theorem keys_set (t : Table K V) (k : K) (v : V) :
    Finmap.keys (t.set k v) = insert k (Finmap.keys t) := by
  ext k'
  rw [Finset.mem_insert, mem_keys, mem_keys, get_set]
  by_cases hk : k' = k <;> simp [hk]

theorem size_set (v : V) (h : t.get k = none) : (t.set k v).size = t.size + 1 := by
  rw [size_eq_card, size_eq_card, keys_set, Finset.card_insert_of_notMem]
  rw [mem_keys, h]
  rintro ⟨_, hv⟩
  cases hv

/-! ## Copies -/

theorem mapVals_set (f : V → W) (t : Table K V) (k : K) (v : V) :
    (t.set k v).mapVals f = (t.mapVals f).set k (f v) := by
  refine ext_get fun k' => ?_
  rw [get_mapVals, get_set, get_set, get_mapVals]
  split <;> rfl

theorem mapVals_prune (f : V → W) (t : Table K V) (p : K → Bool) :
    (t.prune p).mapVals f = (t.mapVals f).prune p := by
  refine ext_get fun k => ?_
  rw [get_mapVals, get_prune, get_prune, get_mapVals]
  split <;> rfl

@[simp] theorem mapVals_id (t : Table K V) : t.mapVals id = t := by
  refine ext_get fun k => ?_
  rw [get_mapVals, Option.map_id_fun, id]

theorem mapVals_mapVals (g : W → X) (f : V → W) (t : Table K V) :
    (t.mapVals f).mapVals g = t.mapVals (g ∘ f) := by
  refine ext_get fun k => ?_
  rw [get_mapVals, get_mapVals, get_mapVals, Option.map_map]

theorem mapVals_congr {f g : V → W} (h : ∀ k v, t.get k = some v → f v = g v) :
    t.mapVals f = t.mapVals g := by
  refine ext_get fun k => ?_
  rw [get_mapVals, get_mapVals]
  cases hk : t.get k with
  | none => rfl
  | some v => rw [Option.map_some, Option.map_some, h k v hk]

/-! ## Blind writes -/

def write (t : Table K V) (w : K × Option V) : Table K V :=
  match w.2 with
  | some v => t.set w.1 v
  | none => t.delete w.1

theorem get_write (t : Table K V) (w : K × Option V) (k : K) :
    (t.write w).get k = if k = w.1 then w.2 else t.get k := by
  obtain ⟨k', v⟩ := w
  cases v with
  | some v => exact get_set t k' k v
  | none => exact get_delete t k' k

/-- After some writes a key holds what the last of them put there, or what it held before. -/
theorem get_writes (ws : List (K × Option V)) (k : K) :
    (∃ o : Option V, ∀ t : Table K V, (ws.foldl write t).get k = o) ∨
      ∀ t : Table K V, (ws.foldl write t).get k = t.get k := by
  induction ws with
  | nil => exact .inr fun _ => rfl
  | cons w ws ih =>
    rcases ih with ⟨o, ho⟩ | hsame
    · exact .inl ⟨o, fun t => ho (t.write w)⟩
    · by_cases hk : k = w.1
      · refine .inl ⟨w.2, fun t => ?_⟩
        rw [List.foldl_cons, hsame, get_write, if_pos hk]
      · refine .inr fun t => ?_
        rw [List.foldl_cons, hsame, get_write, if_neg hk]

/-- Writes that are made again over their own result change nothing. -/
theorem writes_again (ws : List (K × Option V)) (t : Table K V) :
    ws.foldl write (ws.foldl write t) = ws.foldl write t := by
  refine ext_get fun k => ?_
  rcases get_writes ws k with ⟨o, ho⟩ | hsame
  · rw [ho, ho]
  · rw [hsame]

end Table
