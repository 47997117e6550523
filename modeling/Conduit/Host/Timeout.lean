import Conduit.Host.Basic

/-!
# Timeouts and deadlines

A timeout is the policy of an endpoint: how long each call may take, and when all calls must be over.  A call starts a
deadline from it and checks that before every wait; `Timeout.limit?_eq_none_iff` says when a call has no limit.
-/

namespace Conduit

/-- How long each call may take and when every call must be over. -/
structure Timeout where
  duration : Option Duration
  deadline : Option Nat
deriving DecidableEq, Repr

/-- The limit of one call. -/
structure Deadline where
  started : Nat
  limit : Option Nat
deriving DecidableEq, Repr

namespace Timeout

/-- The policy that never expires. -/
def none : Timeout := ⟨.none, .none⟩

/-- Each call may take so long. -/
def after (d : Duration) : Timeout := ⟨some d, .none⟩

/-- Every call must be over at the given instant. -/
def expiringAt (t : Nat) : Timeout := ⟨.none, some t⟩

def withDuration (policy : Timeout) (d : Duration) : Timeout := { policy with duration := some d }

def withDeadline (policy : Timeout) (t : Nat) : Timeout := { policy with deadline := some t }

/-- The policy without its limits. -/
def cleared (_ : Timeout) : Timeout := none

def isUnbounded (policy : Timeout) : Bool := policy.duration.isNone && policy.deadline.isNone

/-- The end of a call that is started now and may take so long, if the clock can show it. -/
def relativeLimit? (now : Nat) (d : Duration) : Option Nat :=
  if now + d.nanos < Clock.horizon then some (now + d.nanos) else .none

/-- The limit of a call that is started now: the earlier of its own end and the end of all calls. -/
def limit? (policy : Timeout) (now : Nat) : Option Nat :=
  match policy.duration.bind (relativeLimit? now), policy.deadline with
  | some relative, some absolute => some (min relative absolute)
  | some relative, .none => some relative
  | .none, absolute => absolute

/-- Starts the deadline of a call. -/
def start (policy : Timeout) (host : Host) : Deadline × Host :=
  (⟨host.readClock.clock.now, policy.limit? host.readClock.clock.now⟩, host.readClock)

theorem limit?_eq_none_iff {policy : Timeout} {now : Nat} : policy.limit? now = .none ↔
    policy.deadline = .none ∧ ∀ d, policy.duration = some d → Clock.horizon ≤ now + d.nanos := by
  obtain ⟨duration, deadline⟩ := policy
  rcases duration with _ | d <;> rcases deadline with _ | t
  · simp [limit?]
  · simp [limit?]
  · by_cases h : now + d.nanos < Clock.horizon
    · simp [limit?, relativeLimit?, h, Nat.not_le.2 h]
    · simp [limit?, relativeLimit?, h, Nat.not_lt.1 h]
  · by_cases h : now + d.nanos < Clock.horizon <;> simp [limit?, relativeLimit?, h]

end Timeout

namespace Deadline

/-- Fails if the limit has been reached; to be called before every wait. -/
def check (deadline : Deadline) (host : Host) : Except Error Unit × Host :=
  match deadline.limit with
  | none => (.ok (), host.note .withinDeadline)
  | some limit =>
    if host.readClock.clock.now < limit then (.ok (), host.readClock.note .withinDeadline)
    else
      let elapsed : Duration := ⟨host.readClock.clock.now - deadline.started⟩
      (.error (.timedOut elapsed), host.readClock.report (.deadlineReached elapsed))

/-- How long the call may still take, if it has a limit. -/
def remaining (deadline : Deadline) (host : Host) : Option Duration × Host :=
  match deadline.limit with
  | none => (none, host)
  | some limit => (some ⟨limit - host.readClock.clock.now⟩, host.readClock)

theorem check_error {deadline : Deadline} {host host' : Host} {e : Error}
    (h : deadline.check host = (.error e, host')) :
    ∃ elapsed, e = .timedOut elapsed ∧ host' = host.readClock.report (.deadlineReached elapsed) := by
  unfold check at h
  split at h
  · simp at h
  · split at h
    · simp at h
    · obtain ⟨h, rfl⟩ := Prod.mk.inj h
      cases h
      exact ⟨_, rfl, rfl⟩

theorem disk_of_check {deadline : Deadline} {host host' : Host} {r : Except Error Unit}
    (h : deadline.check host = (r, host')) : host'.disk = host.disk := by
  unfold check at h
  split at h
  · cases h; rfl
  · split at h <;> cases h <;> rfl

end Deadline

/-- Starts the deadline of a call and checks it at once. -/
def Timeout.check (policy : Timeout) (host : Host) : Except Error Unit × Host :=
  (policy.start host).1.check (policy.start host).2

/-- Starting a deadline and checking it leave the disk alone. -/
theorem Timeout.disk_of_check {policy : Timeout} {host host' : Host} {r : Except Error Unit}
    (h : policy.check host = (r, host')) : host'.disk = host.disk := by
  have hdisk := Deadline.disk_of_check (show (policy.start host).1.check (policy.start host).2 = (r, host') from h)
  exact hdisk

end Conduit
