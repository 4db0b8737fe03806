import KillMyCluster.Control.Audit
import KillMyCluster.Control.Heal
import KillMyCluster.Lib.Table

/-! `Do` of the engine as one call that nothing interleaves with: which error it returns, and what
becomes of the heal that is pending for the machine. Docker and the clock answer as they like. -/

namespace KMC.ControlPlane

deriving instance DecidableEq, Repr for HealKind

/-- A registered `healJob`; its timer is running and its channel is open. -/
structure PendingHeal where
  kind : HealKind
  due : ℤ
  audit : Bool
deriving DecidableEq, Repr

structure Event where
  time : ℤ
  kind : String
  message : String
deriving DecidableEq, Repr

structure Engine where
  network : String
  /-- The container name of each whitelisted node. -/
  nodes : Table ℕ String
  ipCooldown : ℤ
  ipLast : Table String ℤ
  healAfter : ℤ
  heals : Table ℕ PendingHeal
  events : List Event
  /-- What `addEvent` has mirrored to the audit log, if there is one. -/
  audit : Option (List Event)
  snapGen : ℕ
  snapAt : Option ℤ
  lastVisitorKill : Option ℤ

structure ContainerState where
  running : Bool
  networks : List String
deriving DecidableEq, Repr

/-- What Docker answers to each call, by the name of the container. -/
structure Docker where
  inspect : String → Except String ContainerState
  stop : String → Except String Unit
  start : String → Except String Unit
  networkDisconnect : String → String → Except String Unit

/-- What `time.Now` returns in `allowDisrupt`, `noteVisitorKill`, `scheduleHeal` and
`addRingEvent`. -/
structure Clock where
  disrupt : ℤ
  visitor : ℤ
  schedule : ℤ
  event : ℤ

inductive Action
  | kill
  | restart
  | partition
  | other (name : String)
deriving DecidableEq, Repr

inductive KillSource
  | visitor
  | chaos
deriving DecidableEq, Repr

structure MachineStatus where
  running : Bool
  partitioned : Bool
deriving DecidableEq, Repr

def eventCap : ℕ := 64

/-- `strconv.IsPrint`, as if everything above Latin-1 were printable. -/
def isPrint (r : ℕ) : Bool := (0x20 ≤ r && r < 0x7f) || (0xa1 ≤ r && r != 0xad)

def lowerhex (width r : ℕ) : String :=
  .ofList ((List.range width).reverse.map fun i => (r / 16 ^ i % 16).digitChar)

def appendEscapedRune (r : Char) : String :=
  match r.toNat with
  | 0x22 | 0x5c => "\\".push r
  | 0x07 => "\\a"
  | 0x08 => "\\b"
  | 0x09 => "\\t"
  | 0x0a => "\\n"
  | 0x0b => "\\v"
  | 0x0c => "\\f"
  | 0x0d => "\\r"
  | n =>
    if isPrint n then r.toString
    else if n < 0x20 ∨ n = 0x7f then "\\x" ++ lowerhex 2 n
    else "\\u" ++ lowerhex 4 n

/-- The verb `%q`. -/
def quote (s : String) : String := "\"" ++ String.join (s.toList.map appendEscapedRune) ++ "\""

namespace Engine

def addRingEvent (e : Engine) (now : ℤ) (kind message : String) : Engine :=
  let ev := ⟨now, kind, message⟩
  { e with events :=
    if e.events.length < eventCap then e.events ++ [ev] else e.events.drop 1 ++ [ev] }

def addEvent (e : Engine) (now : ℤ) (kind message : String) : Engine :=
  { e.addRingEvent now kind message with audit := e.audit.map (· ++ [⟨now, kind, message⟩]) }

def invalidateSnapshot (e : Engine) : Engine := { e with snapGen := e.snapGen + 1, snapAt := none }

def noteVisitorKill (e : Engine) (now : ℤ) : Engine := { e with lastVisitorKill := some now }

def cancelHeal (e : Engine) (id : ℕ) : Engine := { e with heals := e.heals.delete id }

def scheduleHeal (e : Engine) (now : ℤ) (id : ℕ) (kind : HealKind) (audit : Bool) : Engine :=
  { e with heals := (e.heals.delete id).set id ⟨kind, now + e.healAfter, audit⟩ }

def statusFrom (e : Engine) (cs : ContainerState) : MachineStatus where
  running := cs.running
  partitioned := e.network ≠ "" ∧ cs.running ∧ e.network ∉ cs.networks

def inspect (e : Engine) (d : Docker) (name : String) : Except String MachineStatus :=
  (d.inspect name).map e.statusFrom

/-- What is left of the cooldown of a client, as an `int64`; not positive is none. -/
def wait (e : Engine) (now : ℤ) (clientIP : String) : ℤ :=
  let ip := if clientIP = "" then "unknown" else clientIP
  match e.ipLast.get ip with
  | some last => (e.ipCooldown - timeSub now last).bmod (2 ^ 64)
  | none => 0

def allowDisrupt (e : Engine) (now : ℤ) (clientIP : String) : Engine × Except String Unit :=
  let ip := if clientIP = "" then "unknown" else clientIP
  let wait := e.wait now clientIP
  if 0 < wait then
    (e, .error ("controlplane: per-IP cooldown - retry in " ++ toString (wait / 1_000_000) ++ "ms"))
  else ({ e with ipLast := e.ipLast.set ip now }, .ok ())

def notInWhitelist (id : ℕ) : String :=
  "controlplane: node " ++ toString id ++ " not in whitelist"

def kill (e : Engine) (d : Docker) (clock : Clock) (id : ℕ) (src : KillSource) :
    Engine × Except String Unit :=
  match e.nodes.get id with
  | none => (e, .error (notInWhitelist id))
  | some name =>
    let e := (e.cancelHeal id).scheduleHeal clock.schedule id .start (src = .visitor)
    match d.stop name with
    | .error err => (e.cancelHeal id, .error err)
    | .ok () =>
      let e := e.invalidateSnapshot
      match src with
      | .chaos =>
        (e.addRingEvent clock.event "chaos"
          ("Machine " ++ toString id ++ " killed by the chaos monkey"), .ok ())
      | .visitor => (e.addEvent clock.event "kill" ("Machine " ++ toString id ++ " killed"), .ok ())

/-- After a restart the network is joined again, whatever Docker answers to that. -/
def restart (e : Engine) (d : Docker) (clock : Clock) (id : ℕ) (name : String) :
    Engine × Except String Unit :=
  let e := e.cancelHeal id
  match e.inspect d name with
  | .error err => (e, .error err)
  | .ok st =>
    match if st.running then .ok () else d.start name with
    | .error err => (e, .error err)
    | .ok () =>
      (e.invalidateSnapshot.addEvent clock.event "restart"
        ("Machine " ++ toString id ++ " restarted"), .ok ())

def partition (e : Engine) (d : Docker) (clock : Clock) (id : ℕ) (name : String) :
    Engine × Except String Unit :=
  let e := e.cancelHeal id
  match e.inspect d name with
  | .error err => (e, .error err)
  | .ok st =>
    if ¬ st.running then
      (e, .error ("controlplane: machine " ++ toString id ++ " is not running"))
    else if st.partitioned then
      (e, .error ("controlplane: machine " ++ toString id ++ " already partitioned"))
    else
      let e := e.scheduleHeal clock.schedule id .reconnect true
      match d.networkDisconnect e.network name with
      | .error err => (e.cancelHeal id, .error err)
      | .ok () =>
        (e.invalidateSnapshot.addEvent clock.event "partition"
          ("Machine " ++ toString id ++ " partitioned"), .ok ())

def Do (e : Engine) (d : Docker) (clock : Clock) (clientIP : String) (id : ℕ) (action : Action) :
    Engine × Except String Unit :=
  match e.nodes.get id with
  | none => (e, .error (notInWhitelist id))
  | some name =>
    match action with
    | .kill =>
      match e.allowDisrupt clock.disrupt clientIP with
      | (e, .error err) => (e, .error err)
      | (e, .ok ()) => (e.noteVisitorKill clock.visitor).kill d clock id .visitor
    | .restart => e.restart d clock id name
    | .partition =>
      if e.network = "" then (e, .error "controlplane: partition requires CONTROL_NETWORK")
      else match e.allowDisrupt clock.disrupt clientIP with
        | (e, .error err) => (e, .error err)
        | (e, .ok ()) => (e.noteVisitorKill clock.visitor).partition d clock id name
    | .other name => (e, .error ("controlplane: unknown action " ++ quote name))

/-! ## What becomes of the heal -/

def TurnedAway (e : Engine) (clock : Clock) (clientIP : String) : Action → Prop
  | .kill => 0 < e.wait clock.disrupt clientIP
  | .restart => False
  | .partition => e.network = "" ∨ 0 < e.wait clock.disrupt clientIP
  | .other _ => True

/-- Docker finds the machine as the action needs it, and does what the action asks for. -/
def Carries (e : Engine) (d : Docker) (name : String) : Action → Prop
  | .kill => d.stop name = .ok ()
  | .restart => ∃ cs, d.inspect name = .ok cs ∧ (cs.running = true ∨ d.start name = .ok ())
  | .partition => ∃ cs, d.inspect name = .ok cs ∧ cs.running = true ∧ e.network ∈ cs.networks ∧
      d.networkDisconnect e.network name = .ok ()
  | .other _ => False

def healAfterwards (e : Engine) (clock : Clock) : Action → Option PendingHeal
  | .kill => some ⟨.start, clock.schedule + e.healAfter, true⟩
  | .partition => some ⟨.reconnect, clock.schedule + e.healAfter, true⟩
  | _ => none

/-- The two ways in which an action ends that was not turned away. A failed one has cancelled the
heal that was pending, and does not register it again. -/
inductive Ends (e : Engine) (d : Docker) (clock : Clock) (id : ℕ) (name : String)
    (action : Action) : Engine × Except String Unit → Prop
  | done {e' : Engine} (hc : e.Carries d name action)
      (hh : e'.heals = e.heals.write (id, e.healAfterwards clock action)) :
      Ends e d clock id name action (e', .ok ())
  | failed {e' : Engine} {err : String} (hc : ¬ e.Carries d name action)
      (hh : e'.heals = e.heals.delete id) : Ends e d clock id name action (e', .error err)

variable {e : Engine} {d : Docker} {clock : Clock} {id : ℕ} {name clientIP : String}

theorem delete_delete (t : Table ℕ PendingHeal) (id : ℕ) (job : PendingHeal) :
    (((t.delete id).delete id).set id job).delete id = t.delete id := by
  refine Table.ext_get fun k => ?_
  simp only [Table.get_delete, Table.get_set]
  split <;> rfl

theorem set_delete (t : Table ℕ PendingHeal) (id : ℕ) (job : PendingHeal) :
    ((t.delete id).delete id).set id job = t.write (id, some job) := by
  refine Table.ext_get fun k => ?_
  simp only [Table.get_delete, Table.get_set, Table.get_write]
  split <;> rfl

theorem kill_ends (hn : e.nodes.get id = some name) :
    Ends e d clock id name .kill (e.kill d clock id .visitor) := by
  unfold kill
  simp only [hn]
  cases hs : d.stop name with
  | error err => exact .failed (by simp [Carries, hs]) (delete_delete _ _ _)
  | ok u => exact .done hs (set_delete _ _ _)

theorem restart_ends : Ends e d clock id name .restart (e.restart d clock id name) := by
  unfold restart inspect
  cases hi : d.inspect name with
  | error err => exact .failed (by simp [Carries, hi]) rfl
  | ok cs =>
    simp only [Except.map, statusFrom]
    cases hr : cs.running with
    | true => exact .done ⟨cs, hi, .inl hr⟩ rfl
    | false =>
      cases hs : d.start name with
      | error err => exact .failed (by simp [Carries, hi, hr, hs]) rfl
      | ok u => exact .done ⟨cs, hi, .inr hs⟩ rfl

theorem partition_ends (hnet : e.network ≠ "") :
    Ends e d clock id name .partition (e.partition d clock id name) := by
  unfold partition inspect
  cases hi : d.inspect name with
  | error err => exact .failed (by simp [Carries, hi]) rfl
  | ok cs =>
    simp only [Except.map, statusFrom, cancelHeal, scheduleHeal]
    by_cases hr : cs.running = true
    · rw [if_neg (not_not.mpr hr)]
      by_cases hmem : e.network ∈ cs.networks
      · rw [if_neg (by simp [hmem])]
        cases hd : d.networkDisconnect e.network name with
        | error err => exact .failed (by simp [Carries, hi, hd]) (delete_delete _ _ _)
        | ok u => exact .done ⟨cs, hi, hr, hmem, hd⟩ (set_delete _ _ _)
      · rw [if_pos (by simp [hnet, hr, hmem])]
        exact .failed (by simp [Carries, hi, hmem]) rfl
    · rw [if_pos hr]
      exact .failed (by simp [Carries, hi, hr]) rfl

structure Admits (e e' : Engine) : Prop where
  network : e'.network = e.network
  nodes : e'.nodes = e.nodes
  healAfter : e'.healAfter = e.healAfter
  heals : e'.heals = e.heals

theorem Admits.noteVisitorKill {e' : Engine} {now : ℤ} (h : Admits e e') :
    Admits e (e'.noteVisitorKill now) := ⟨h.network, h.nodes, h.healAfter, h.heals⟩

theorem Ends.of_admits {e' : Engine} {action : Action} {r : Engine × Except String Unit}
    (h : Ends e' d clock id name action r) (ha : Admits e e') :
    Ends e d clock id name action r := by
  have hc : e'.Carries d name action ↔ e.Carries d name action := by
    cases action <;> simp only [Carries, ha.network]
  have hl : e'.healAfterwards clock action = e.healAfterwards clock action := by
    cases action <;> simp only [healAfterwards, ha.healAfter]
  cases h with
  | done hcar hh => exact .done (hc.mp hcar) (by rw [hh, ha.heals, hl])
  | failed hcar hh => exact .failed (fun h => hcar (hc.mpr h)) (by rw [hh, ha.heals])

theorem allowDisrupt_cases (e : Engine) (now : ℤ) (clientIP : String) :
    (0 < e.wait now clientIP ∧ ∃ err, e.allowDisrupt now clientIP = (e, .error err)) ∨
    (¬ 0 < e.wait now clientIP ∧
      ∃ e', e.allowDisrupt now clientIP = (e', .ok ()) ∧ Admits e e') := by
  unfold allowDisrupt
  by_cases hw : 0 < e.wait now clientIP
  · exact .inl ⟨hw, _, if_pos hw⟩
  · exact .inr ⟨hw, _, if_neg hw, rfl, rfl, rfl, rfl⟩

/-- An action on a whitelisted machine is turned away, or it ends in one of the two ways. -/
theorem Do_cases (d : Docker) (clock : Clock) (clientIP : String) (action : Action)
    (hn : e.nodes.get id = some name) :
    (e.TurnedAway clock clientIP action ∧
      ∃ err, e.Do d clock clientIP id action = (e, .error err)) ∨
    (¬ e.TurnedAway clock clientIP action ∧
      Ends e d clock id name action (e.Do d clock clientIP id action)) := by
  unfold Do
  simp only [hn]
  cases action with
  | kill =>
    rcases e.allowDisrupt_cases clock.disrupt clientIP with ⟨hw, err, hr⟩ | ⟨hw, e', hr, ha⟩
    · rw [hr]
      exact .inl ⟨hw, err, rfl⟩
    · rw [hr]
      have hn' : (e'.noteVisitorKill clock.visitor).nodes.get id = some name := ha.nodes ▸ hn
      exact .inr ⟨hw, (kill_ends hn').of_admits ha.noteVisitorKill⟩
  | restart => exact .inr ⟨fun h => h, restart_ends⟩
  | partition =>
    by_cases hnet : e.network = ""
    · rw [if_pos hnet]
      exact .inl ⟨.inl hnet, _, rfl⟩
    rw [if_neg hnet]
    rcases e.allowDisrupt_cases clock.disrupt clientIP with ⟨hw, err, hr⟩ | ⟨hw, e', hr, ha⟩
    · rw [hr]
      exact .inl ⟨.inr hw, err, rfl⟩
    · rw [hr]
      have hnet' : (e'.noteVisitorKill clock.visitor).network ≠ "" := ha.network ▸ hnet
      exact .inr ⟨not_or.mpr ⟨hnet, hw⟩, (partition_ends hnet').of_admits ha.noteVisitorKill⟩
  | other name => exact .inl ⟨trivial, _, rfl⟩

/-- An action that returns an error leaves the pending heal alone exactly if none is pending, or it
was turned away; otherwise the heal is gone. -/
theorem failed_action_keeps_heal (e : Engine) (d : Docker) (clock : Clock) (clientIP : String)
    (id : ℕ) (action : Action) (name : String) (hn : e.nodes.get id = some name) :
    (∀ err, (e.Do d clock clientIP id action).2 = .error err →
      (e.Do d clock clientIP id action).1.heals.get id = e.heals.get id) ↔
    e.heals.get id = none ∨ e.TurnedAway clock clientIP action ∨ e.Carries d name action := by
  rcases Do_cases d clock clientIP action hn with ⟨haway, err, hr⟩ | ⟨haway, hends⟩
  · rw [hr]
    exact iff_of_true (fun _ _ => rfl) (.inr (.inl haway))
  generalize e.Do d clock clientIP id action = r at hends
  cases hends with
  | done hc => exact iff_of_true (fun err h => by cases h) (.inr (.inr hc))
  | failed hc hh =>
    simp only [hh, Table.get_delete, if_true, haway, hc, or_false]
    exact ⟨fun h => (h _ rfl).symm, fun h _ _ => h.symm⟩

/-- Machine 1 is partitioned, to be reconnected after ten seconds. -/
def partitionedEngine : Engine where
  network := "kmc"
  nodes := (∅ : Table ℕ String).set 1 "node1"
  ipCooldown := 2 * second
  ipLast := (∅ : Table String ℤ).set "visitor" 0
  healAfter := 10 * second
  heals := (∅ : Table ℕ PendingHeal).set 1 ⟨.reconnect, 10 * second, true⟩
  events := []
  audit := none
  snapGen := 1
  snapAt := none
  lastVisitorKill := some 0

def unwillingDocker : Docker where
  inspect := fun _ => .ok ⟨true, []⟩
  stop := fun _ => .error "timeout"
  start := fun _ => .error "timeout"
  networkDisconnect := fun _ _ => .error "timeout"

def clockAt (now : ℤ) : Clock := ⟨now, now, now, now⟩

def visitAgain (now : ℤ) (action : Action) : Engine × Except String Unit :=
  partitionedEngine.Do unwillingDocker (clockAt now) "visitor" 1 action

theorem failed_action_keeps_heal_cooldown :
    (visitAgain second .kill).2 = .error "controlplane: per-IP cooldown - retry in 1000ms" ∧
    ∀ err, (visitAgain second .kill).2 = .error err →
      (visitAgain second .kill).1.heals.get 1 = partitionedEngine.heals.get 1 :=
  have haway : partitionedEngine.TurnedAway (clockAt second) "visitor" .kill :=
    (by decide : 0 < partitionedEngine.wait second "visitor")
  ⟨by rfl, (failed_action_keeps_heal partitionedEngine unwillingDocker (clockAt second) "visitor" 1
    .kill "node1" (by decide)).mpr (.inr (.inl haway))⟩

/-- Partitioned once more, or killed in vain, the machine is left without its heal. -/
theorem failed_action_drops_heal :
    partitionedEngine.heals.get 1 = some ⟨.reconnect, 10 * second, true⟩ ∧
    (visitAgain (5 * second) .partition).2 =
      .error "controlplane: machine 1 already partitioned" ∧
    (visitAgain (5 * second) .partition).1.heals.get 1 = none ∧
    (visitAgain (5 * second) .kill).2 = .error "timeout" ∧
    (visitAgain (5 * second) .kill).1.heals.get 1 = none :=
  ⟨by decide, by rfl, by decide, by rfl, by decide⟩

end Engine

end KMC.ControlPlane
