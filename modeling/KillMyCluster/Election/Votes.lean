import KillMyCluster.Election.Tally

/-! The votes of one node whose `saveHardState` may fail while the process goes on, for any
requests and responses that reach it. A vote once granted stays in `votedFor`, except that the
error branch of `HandleRequestVote` forgets it when a request it was granted to comes again. -/

namespace KMC

open Trace

inductive Input
  | request (recent : Bool) (body : Body)
  | response (peer : ℕ) (body : Body) (resp : Response)
  | timeout
  | stepDown

/-- A node with the votes it granted, as term and candidate, and the terms it stood in. -/
structure Voter where
  node : Node
  granted : List (ℕ × ℕ) := []
  stood : List ℕ := []

def Body.ballot : Body → Option RequestVoteRequest
  | .preVote _ _ req | .vote req => if req.preVote then none else some req
  | .replicate _ | .heartbeat _ | .snapshot _ => none

def Response.votes : Response → Bool
  | .vote resp => resp.voteGranted
  | .append _ | .install _ => false

def grantOf (body : Body) (resp : Response) : Option (ℕ × ℕ) :=
  if resp.votes then body.ballot.map fun req => (req.term, req.candidateId) else none

/-- `startElectionLocked` has run, and tried to save the node's vote for itself. -/
def Effect.stands (n : Node) (e : Effect) : List ℕ :=
  if .saveHardState e.node.currentTerm n.id ∈ e.calls then [e.node.currentTerm] else []

def Voter.step (v : Voter) : Input × Io → Option Voter
  | (.request recent body, io) =>
    let (e, resp) := handle io recent v.node body
    some { v with node := e.node, granted := v.granted ++ (grantOf body resp).toList }
  | (.response peer body resp, io) => do
    let e ← receive io v.node peer body resp
    return { v with node := e.node, stood := v.stood ++ e.stands v.node }
  | (.timeout, io) => do
    let e ← v.node.timeout io
    return { v with node := e.node, stood := v.stood ++ e.stands v.node }
  | (.stepDown, _) => do
    let e ← v.node.resign
    return { v with node := e.node }

/-! ## Elections -/

variable {n m : Node} {fail : Call → Bool} {e : Effect} {io : Io} {body : Body} {recent : Bool}
  {v : Voter}

/-- A section that gives no vote to others: term and vote change legally, and if the node stands
it does so in a new term, with its own vote. -/
structure Effect.Lawful (n : Node) (e : Effect) : Prop where
  id : e.node.id = n.id
  legal : Legal n.hard e.node.hard
  stands : e.stands n = [] ∨
    e.node.hard = (n.currentTerm + 1, n.id) ∧ e.stands n = [n.currentTerm + 1]

theorem Effect.Lawful.same {sends : List (ℕ × Body)} (hid : m.id = n.id) (hh : m.hard = n.hard) :
    Effect.Lawful n { node := m, sends := sends } :=
  ⟨hid, hh ▸ Legal.refl _, .inl (by simp [Effect.stands])⟩

theorem Node.becomeFollower_lawful {t : ℕ} (hid : n.id ≠ noVote) (h : n.currentTerm < t) :
    (n.becomeFollowerLocked t).Lawful n := by
  refine ⟨rfl, .inl h, .inl ?_⟩
  simp [Effect.stands, Node.becomeFollowerLocked, hid]

theorem Node.startElection_lawful (n : Node) : (n.startElectionLocked fail).Lawful n := by
  have hh : (n.startElectionLocked fail).node.hard = (n.currentTerm + 1, n.id) ∧
      (n.startElectionLocked fail).calls = [.saveHardState (n.currentTerm + 1) n.id] ∧
      (n.startElectionLocked fail).node.id = n.id := by
    unfold Node.startElectionLocked
    simp only
    split
    · exact ⟨rfl, rfl, rfl⟩
    split <;> exact ⟨rfl, rfl, rfl⟩
  obtain ⟨h1, h2, h3⟩ := hh
  have hterm : (n.startElectionLocked fail).node.currentTerm = n.currentTerm + 1 :=
    congrArg Prod.fst h1
  exact ⟨h3, .inl (by rw [h1]; exact Nat.lt_succ_self _),
    .inr ⟨h1, by simp [Effect.stands, h2, hterm]⟩⟩

theorem Node.timeout_lawful (h : n.timeout io = some e) : e.Lawful n := by
  obtain ⟨-, rfl⟩ := Node.timeout_some h
  unfold Node.startPreVoteLocked
  simp only
  split
  · exact { Node.startElection_lawful _ with }
  · exact .same rfl rfl

theorem receive_lawful {peer : ℕ} {resp : Response} (hid : n.id ≠ noVote)
    (h : receive io n peer body resp = some e) : e.Lawful n := by
  cases receive_cases h with
  | outvoted hlt => exact Node.becomeFollower_lawful hid hlt
  | stands _ _ _ => exact { Node.startElection_lawful _ with }
  | acked _ _ _ =>
    unfold Node.maybeAdvanceCommitLocked
    split <;> exact .same rfl rfl
  | ignored | polled | voted | wins | refused | installed => exact .same rfl rfl

/-! ## Votes for others -/

/-- The vote of a request is not lost: the call that saves it fails only if none was given. -/
def Node.Remembers (n : Node) (fail : Call → Bool) (req : RequestVoteRequest) : Prop :=
  n.currentTerm = req.term → n.votedFor ≠ noVote → ∀ t w, fail (.saveHardState t w) = false

theorem Node.castVote_legal (n : Node) (req : RequestVoteRequest)
    (hf : n.votedFor ≠ noVote → ∀ t w, fail (.saveHardState t w) = false) :
    (n.castVote fail req).1.node.id = n.id ∧ Legal n.hard (n.castVote fail req).1.node.hard := by
  unfold Node.castVote
  split
  · exact ⟨rfl, Legal.refl _⟩
  rename_i hv
  split
  · exact ⟨rfl, Legal.refl _⟩
  simp only
  split
  · rename_i hfail
    have hnone : n.votedFor = noVote := by
      by_contra hne
      rw [hf hne] at hfail
      cases hfail
    exact ⟨rfl, .inr ⟨rfl, .inr hnone⟩⟩
  · refine ⟨rfl, .inr ⟨rfl, ?_⟩⟩
    change n.votedFor = req.candidateId ∨ n.votedFor = noVote
    tauto

theorem Node.handleRequestVote_legal {req : RequestVoteRequest}
    (hf : req.preVote = false → n.Remembers fail req) :
    (n.handleRequestVote fail recent req).1.node.id = n.id ∧
      Legal n.hard (n.handleRequestVote fail recent req).1.node.hard := by
  unfold Node.handleRequestVote
  split
  · exact ⟨rfl, Legal.refl _⟩
  split
  · exact ⟨rfl, Legal.refl _⟩
  rename_i hpre
  split
  · exact ⟨rfl, Legal.refl _⟩
  have hq := n.adoptTerm_quiet req.term
  simp only
  split
  · exact ⟨hq.id, hq.ledger.legal⟩
  rename_i hle
  have hnew : (n.adoptTerm req.term).node.votedFor ≠ noVote →
      ∀ t w, fail (.saveHardState t w) = false := by
    unfold Node.adoptTerm at hle ⊢
    split
    · -- a term just adopted comes without a vote
      exact fun hne => absurd rfl hne
    · rename_i hlt
      rw [if_neg hlt] at hle
      exact hf (by simpa using hpre) (by simp only at hle; omega)
  obtain ⟨h1, h2⟩ := (n.adoptTerm req.term).node.castVote_legal req hnew
  exact ⟨h1.trans hq.id, hq.ledger.legal.trans h2⟩

/-- A request for a real vote names another node, and a vote given to it is not forgotten. -/
def Body.Fair (n : Node) (io : Io) (body : Body) : Prop :=
  ∀ req ∈ body.ballot, req.candidateId ≠ noVote ∧ req.candidateId ≠ n.id ∧
    n.Remembers io.fail req

theorem handle_legal (hf : body.Fair n io) : (handle io recent n body).1.node.id = n.id ∧
      Legal n.hard (handle io recent n body).1.node.hard := by
  have hvote : ∀ req : RequestVoteRequest, (req.preVote = false → body.ballot = some req) →
      (n.handleRequestVote io.fail recent req).1.node.id = n.id ∧
        Legal n.hard (n.handleRequestVote io.fail recent req).1.node.hard :=
    fun req hb => Node.handleRequestVote_legal fun hpre => (hf req (hb hpre)).2.2
  cases body with
  | preVote _ _ req => exact hvote req fun hpre => by simp [Body.ballot, hpre]
  | vote req => exact hvote req fun hpre => by simp [Body.ballot, hpre]
  | replicate req | heartbeat req =>
    have h : (n.handleAppendEntries io.fail req).1.Quiet n := n.handleAppendEntries_quiet req
    exact ⟨h.id, h.ledger.legal⟩
  | snapshot req =>
    have h : (n.handleInstallSnapshot io.fail req).1.Quiet n := n.handleInstallSnapshot_quiet req
    exact ⟨h.id, h.ledger.legal⟩

/-- A vote that is granted is the one in memory. -/
theorem grantOf_spec {x : ℕ × ℕ} (h : grantOf body (handle io recent n body).2 = some x) :
    ∃ req, body.ballot = some req ∧ x = (req.term, req.candidateId) ∧
      (handle io recent n body).1.node.hard = x := by
  have hvote : ∀ req : RequestVoteRequest, (req.preVote = true → body.ballot = none) →
      (req.preVote = false → body.ballot = some req) →
      handle io recent n body = ((n.handleRequestVote io.fail recent req).1,
        .vote (n.handleRequestVote io.fail recent req).2) →
      ∃ req, body.ballot = some req ∧ x = (req.term, req.candidateId) ∧
        (handle io recent n body).1.node.hard = x := by
    intro req hpoll hreal hh
    rw [hh] at h ⊢
    unfold grantOf at h
    split at h
    swap
    · cases h
    rename_i hg
    cases hpre : req.preVote with
    | true => simp [hpoll hpre] at h
    | false =>
      simp only [hreal hpre, Option.map_some, Option.some.injEq] at h
      exact ⟨req, hreal hpre, h.symm, (Node.handleRequestVote_granted hpre hg).trans h⟩
  cases body with
  | preVote _ _ req | vote req =>
    exact hvote req (fun hpre => by simp [Body.ballot, hpre])
      (fun hpre => by simp [Body.ballot, hpre]) rfl
  | replicate | heartbeat | snapshot => simp [grantOf, Body.ballot] at h

/-! ## The record -/

structure Voter.Books (v : Voter) : Prop where
  granted_le : ∀ T x, (T, x) ∈ v.granted → x ≠ noVote ∧ x ≠ v.node.id ∧
    T ≤ v.node.currentTerm ∧ (T = v.node.currentTerm → v.node.votedFor = x)
  stood_le : ∀ T ∈ v.stood, T ≤ v.node.currentTerm ∧
    (T = v.node.currentTerm → v.node.votedFor = v.node.id)
  once : ∀ T x y, (T, x) ∈ v.granted → (T, y) ∈ v.granted → x = y
  apart : ∀ T x, T ∈ v.stood → (T, x) ∉ v.granted

/-- Where the node has moved on legally, its books still hold. -/
theorem Voter.Books.move (h : v.Books) (hid : v.node.id ≠ noVote) (hm : m.id = v.node.id)
    (hl : Legal v.node.hard m.hard) : ({ v with node := m } : Voter).Books := by
  have hkeep : ∀ T x, x ≠ noVote → T ≤ v.node.currentTerm →
      (T = v.node.currentTerm → v.node.votedFor = x) →
      T ≤ m.currentTerm ∧ (T = m.currentTerm → m.votedFor = x) := by
    intro T x hx hT hv
    simp only [Legal, Node.hard] at hl
    refine ⟨by omega, fun hTm => ?_⟩
    have := hv (by omega)
    omega
  refine ⟨fun T x hx => ?_, fun T hT => ?_, h.once, h.apart⟩
  · obtain ⟨h1, h2, h3, h4⟩ := h.granted_le T x hx
    exact ⟨h1, hm ▸ h2, hkeep T x h1 h3 h4⟩
  · obtain ⟨h1, h2⟩ := h.stood_le T hT
    simp only [hm]
    exact hkeep T _ hid h1 h2

theorem Voter.Books.grant (h : v.Books) (hid : v.node.id ≠ noVote) {T x : ℕ} (hm : m.id = v.node.id)
    (hl : Legal v.node.hard m.hard) (hh : m.hard = (T, x)) (hx : x ≠ noVote) (hne : x ≠ v.node.id) :
    ({ v with node := m, granted := v.granted ++ [(T, x)] } : Voter).Books := by
  have hmove := h.move hid hm hl
  obtain ⟨rfl, rfl⟩ := Prod.mk.inj hh
  have hnew : ∀ y, (m.currentTerm, y) ∈ v.granted → y = m.votedFor := fun y hy =>
    ((hmove.granted_le _ y hy).2.2.2 rfl).symm
  refine ⟨fun T x hx' => ?_, hmove.stood_le, fun T x y hx' hy => ?_, fun T x hT hx' => ?_⟩
  · rcases List.mem_append.mp hx' with hx' | hx'
    · exact hmove.granted_le T x hx'
    · obtain ⟨rfl, rfl⟩ := Prod.mk.inj (List.mem_singleton.mp hx')
      exact ⟨hx, hm ▸ hne, le_rfl, fun _ => rfl⟩
  · rcases List.mem_append.mp hx' with hx' | hx' <;> rcases List.mem_append.mp hy with hy | hy
    · exact h.once T x y hx' hy
    · obtain ⟨rfl, rfl⟩ := Prod.mk.inj (List.mem_singleton.mp hy)
      exact hnew x hx'
    · obtain ⟨rfl, rfl⟩ := Prod.mk.inj (List.mem_singleton.mp hx')
      exact (hnew y hy).symm
    · exact ((Prod.mk.inj (List.mem_singleton.mp hx')).2).trans
        (Prod.mk.inj (List.mem_singleton.mp hy)).2.symm
  · rcases List.mem_append.mp hx' with hx' | hx'
    · exact h.apart T x hT hx'
    · -- a node that stood in the term has its own vote there
      obtain ⟨rfl, rfl⟩ := Prod.mk.inj (List.mem_singleton.mp hx')
      exact hne (((hmove.stood_le _ hT).2 rfl).trans hm)

/-- An election in the next term. -/
theorem Voter.Books.stand (h : v.Books) (hid : v.node.id ≠ noVote) (hm : m.id = v.node.id)
    (hh : m.hard = (v.node.currentTerm + 1, v.node.id)) :
    ({ v with node := m, stood := v.stood ++ [v.node.currentTerm + 1] } : Voter).Books := by
  have hmove := h.move hid hm (.inl (by rw [hh]; exact Nat.lt_succ_self _))
  obtain ⟨hterm, hvote⟩ := Prod.mk.inj hh
  refine ⟨hmove.granted_le, fun T hT => ?_, h.once, fun T x hT hx => ?_⟩
  · rcases List.mem_append.mp hT with hT | hT
    · exact hmove.stood_le T hT
    · obtain rfl := List.mem_singleton.mp hT
      exact ⟨hterm.ge, fun _ => hvote.trans hm.symm⟩
  · rcases List.mem_append.mp hT with hT | hT
    · exact h.apart T x hT hx
    · obtain rfl := List.mem_singleton.mp hT
      have := (h.granted_le _ x hx).2.2.1
      omega

theorem Effect.Lawful.books (he : e.Lawful v.node) (h : v.Books) (hid : v.node.id ≠ noVote) :
    ({ v with node := e.node, stood := v.stood ++ e.stands v.node } : Voter).Books := by
  rcases he.stands with hs | ⟨hh, hs⟩ <;> rw [hs]
  · simpa using h.move hid he.id he.legal
  · exact h.stand hid he.id hh

/-! ## Runs -/

/-- Every request for a real vote comes from another node, and saving the vote does not fail
where one was given already. -/
def Voter.FairRequest (v : Voter) : Input × Io → Prop
  | (.request _ body, io) => body.Fair v.node io
  | _ => True

/-- And the term stays within 64 bits: past them `currentTerm++` would come to 0, and the node would
vote again in terms it has voted in. -/
def Voter.Fair (v : Voter) (a : Input × Io) : Prop :=
  v.FairRequest a ∧ ∀ w ∈ v.step a, w.node.currentTerm < 2 ^ 64

theorem Voter.Books.step {w : Voter} {a : Input × Io} (h : v.Books) (hid : v.node.id ≠ noVote)
    (ha : v.FairRequest a) (hs : v.step a = some w) : w.Books ∧ w.node.id = v.node.id := by
  obtain ⟨i, io⟩ := a
  cases i with
  | request recent body =>
    have hl : (handle io recent v.node body).1.node.id = v.node.id ∧
        Legal v.node.hard (handle io recent v.node body).1.node.hard := handle_legal ha
    obtain rfl := Option.some.inj hs
    refine ⟨?_, hl.1⟩
    change ({ v with
      node := (handle io recent v.node body).1.node
      granted := v.granted ++ (grantOf body (handle io recent v.node body).2).toList } :
        Voter).Books
    cases hg : grantOf body (handle io recent v.node body).2 with
    | none => simpa using h.move hid hl.1 hl.2
    | some x =>
      obtain ⟨req, hb, rfl, hh⟩ := grantOf_spec hg
      obtain ⟨hpos, hne, -⟩ := ha req hb
      exact h.grant hid hl.1 hl.2 hh hpos hne
  | response peer body resp =>
    obtain ⟨e, he, hw⟩ := Option.bind_eq_some_iff.mp hs
    obtain rfl := Option.some.inj hw
    have hl := receive_lawful hid he
    exact ⟨hl.books h hid, hl.id⟩
  | timeout =>
    obtain ⟨e, he, hw⟩ := Option.bind_eq_some_iff.mp hs
    obtain rfl := Option.some.inj hw
    have hl := Node.timeout_lawful he
    exact ⟨hl.books h hid, hl.id⟩
  | stepDown =>
    obtain ⟨e, he, hw⟩ := Option.bind_eq_some_iff.mp hs
    obtain rfl := Option.some.inj hw
    have hq := Node.resign_quiet he
    exact ⟨h.move hid hq.id hq.ledger.legal, hq.id⟩

/-- In any term a node grants its vote to at most one candidate, and to none if it stood
itself. -/
theorem one_vote_per_term {id : ℕ} (hid : id ≠ noVote) {peers : List ℕ} {retain : ℤ}
    {st : PersistedState} {v : Voter}
    (h : Reaches Voter.step Voter.Fair ⟨newNode id peers retain st, [], []⟩ v) (T : ℕ) :
    (∀ x y, (T, x) ∈ v.granted → (T, y) ∈ v.granted → x = y) ∧
      (T ∈ v.stood → ∀ x, (T, x) ∉ v.granted) := by
  have hinv : v.Books ∧ v.node.id ≠ noVote := by
    refine h.invariant (I := fun v => v.Books ∧ v.node.id ≠ noVote) ?_
      ⟨⟨by simp, by simp, by simp, by simp⟩, hid⟩
    intro v a w ⟨hb, hid⟩ ha hs
    obtain ⟨hw, hw'⟩ := hb.step hid ha.1 hs
    exact ⟨hw, hw' ▸ hid⟩
  exact ⟨fun x y => hinv.1.once T x y, fun hT x => hinv.1.apart T x hT⟩

/-- Node 2 is asked for its vote by node 1, twice, and by node 3. The vote cannot be saved at
first. -/
def firstSaveFails : List (Input × Io) :=
  [(.request false (.vote ⟨1, 1, 0, 0, false⟩), { fault := fun _ => some 0 }),
    (.request false (.vote ⟨1, 1, 0, 0, false⟩), {}),
    (.request false (.vote ⟨1, 3, 0, 0, false⟩), {})]

theorem one_vote_per_term_two : ∃ v,
    Reaches Voter.step Voter.Fair ⟨newNode 2 [1, 3] 0 {}, [], []⟩ v ∧ v.granted = [(1, 1)] ∧
    ∀ x y, (1, x) ∈ v.granted → (1, y) ∈ v.granted → x = y := by
  have hs := Reaches.of_exec Voter.step Voter.Fair ⟨newNode 2 [1, 3] 0 {}, [], []⟩ firstSaveFails
    (by
      refine ⟨⟨?_, by rintro w ⟨⟩; decide⟩, ⟨?_, by rintro w ⟨⟩; decide⟩,
        ⟨?_, by rintro w ⟨⟩; decide⟩, trivial⟩
      · rintro req ⟨⟩
        exact ⟨by decide, by decide, fun h => absurd h (by decide)⟩
      · rintro req ⟨⟩
        exact ⟨by decide, by decide, fun _ h => absurd rfl h⟩
      · rintro req ⟨⟩
        exact ⟨by decide, by decide, fun _ _ _ _ => rfl⟩) rfl
  exact ⟨_, hs, rfl, (one_vote_per_term (by decide) hs 1).1⟩

/-- The same with the second save failing: both nodes get the vote. -/
theorem two_votes_in_a_term : ∃ v,
    Reaches Voter.step (fun _ _ => True) ⟨newNode 2 [1, 3] 0 {}, [], []⟩ v ∧
    (1, 1) ∈ v.granted ∧ (1, 3) ∈ v.granted := by
  have hs := Reaches.of_exec Voter.step (fun _ _ => True) ⟨newNode 2 [1, 3] 0 {}, [], []⟩
    [(.request false (.vote ⟨1, 1, 0, 0, false⟩), {}),
      (.request false (.vote ⟨1, 1, 0, 0, false⟩), { fault := fun _ => some 0 }),
      (.request false (.vote ⟨1, 3, 0, 0, false⟩), {})]
    (.of_forall (fun _ _ _ => trivial) _) rfl
  exact ⟨_, hs, by decide, by decide⟩

end KMC
