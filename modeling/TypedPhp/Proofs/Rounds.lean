import TypedPhp.Rounds

set_option autoImplicit false

/-!
# Seeds under a stop signal

Between two calls of `RoundSeeds.next` the stop signal may be raised and lowered at will. A
`Session` keeps the seeds, the signal and what the calls have returned, and runs over a list
of events. What it hands out depends on the events through one number only, the calls made
while the signal was down: `Handed` says this of a session, `Handed.step` that one event
keeps it, and `Handed.run` that a whole run does. The rest follows: the seeds are the
first outputs of the master stream, a refused call changes nothing, and two sessions of one
master seed never disagree.
-/

namespace TypedPhp

namespace ChaCha.Stream

/-- The stream after `n` outputs of 64 bits. -/
def after64 (s : Stream) : Nat → Stream
  | 0 => s
  | n + 1 => (s.after64 n).next64.2

/-- The output of 64 bits that `i` others precede. -/
def word64 (s : Stream) (i : Nat) : UInt64 := (s.after64 i).next64.1

/-- The first `n` outputs of 64 bits. -/
def words64 (s : Stream) (n : Nat) : List UInt64 := (List.range n).map s.word64

theorem words64_succ (s : Stream) (n : Nat) : s.words64 (n + 1) = s.words64 n ++ [s.word64 n] := by
  simp [words64, List.range_succ]

theorem words64_prefix (s : Stream) {m n : Nat} (hmn : m ≤ n) : s.words64 m <+: s.words64 n := by
  obtain ⟨k, rfl⟩ := Nat.exists_eq_add_of_le hmn
  simp only [words64, List.range_add, List.map_append]
  exact List.prefix_append _ _

end ChaCha.Stream

namespace RoundSeeds

/-- What happens to the seeds of a run. -/
inductive Event where
  | call
  /-- The stop signal is raised or lowered. -/
  | signal (stopped : Bool)
deriving DecidableEq, Repr

/-- The seeds of a run with the signal that stops them. -/
structure Session where
  seeds : RoundSeeds
  stopped : Bool
  /-- What the calls have returned, the oldest first. -/
  results : List (Option UInt64)

/-- The signal, before each call, of events that begin with a given one. -/
def signalsAtCalls : Bool → List Event → List Bool
  | _, [] => []
  | stopped, .call :: events => stopped :: signalsAtCalls stopped events
  | _, .signal stopped :: events => signalsAtCalls stopped events

/-- How many of the events are calls made while the signal is down. -/
def callsDown (stopped : Bool) (events : List Event) : Nat :=
  (signalsAtCalls stopped events).count false

/-- How many seeds so many calls may take. -/
def granted : Option Nat → Nat → Nat
  | none, calls => calls
  | some rounds, calls => min rounds calls

/-- A further call finds a round left. -/
def RoundLeft (rounds : Option Nat) (calls : Nat) : Prop := ∀ n, rounds = some n → calls < n

theorem granted_succ {rounds : Option Nat} {calls : Nat} (hleft : RoundLeft rounds calls) :
    granted rounds (calls + 1) = granted rounds calls + 1 := by
  cases rounds with
  | none => rfl
  | some n =>
    have hlt : calls < n := hleft n rfl
    simp only [granted]
    omega

theorem not_roundLeft {rounds : Option Nat} {calls : Nat} :
    ¬ RoundLeft rounds calls ↔ ∃ n, rounds = some n ∧ n ≤ calls := by
  simp [RoundLeft]

theorem granted_used {n calls : Nat} (hused : n ≤ calls) : granted (some n) calls = n :=
  Nat.min_eq_left hused

theorem granted_spent {rounds : Option Nat} {calls : Nat} (hspent : ¬ RoundLeft rounds calls) :
    granted rounds (calls + 1) = granted rounds calls := by
  obtain ⟨n, rfl, hused⟩ := not_roundLeft.mp hspent
  rw [granted_used hused, granted_used (Nat.le_succ_of_le hused)]

namespace Session

/-- A session before its first event. -/
def start (seeds : RoundSeeds) (stopped : Bool) : Session := ⟨seeds, stopped, []⟩

/-- A session after one more event. -/
def step (s : Session) : Event → Session
  | .call =>
    let (result, seeds) := s.seeds.next s.stopped
    { s with seeds, results := s.results ++ [result] }
  | .signal stopped => { s with stopped }

/-- A session after more events. -/
def run (s : Session) (events : List Event) : Session := events.foldl step s

/-- The seeds that were handed out, the oldest first. -/
def yielded (s : Session) : List UInt64 := s.results.filterMap id

/-- The calls of a session return what `RoundSeeds.run` does under the signals they find. -/
theorem results_run (s : Session) (events : List Event) :
    (s.run events).results = s.results ++ s.seeds.run (signalsAtCalls s.stopped events) := by
  induction events generalizing s with
  | nil => simp [run, signalsAtCalls, RoundSeeds.run]
  | cons event events ih =>
    have hrun : s.run (event :: events) = (s.step event).run events := rfl
    rw [hrun, ih]
    cases event with
    | call => simp [step, signalsAtCalls, RoundSeeds.run]
    | signal stopped => rfl

/-- A session has handed out what `calls` calls under a lowered signal may take. -/
structure Handed (stream : ChaCha.Stream) (rounds : Option Nat) (calls : Nat) (s : Session) :
    Prop where
  seeds_eq : s.seeds =
    ⟨stream.after64 (granted rounds calls), rounds.map (· - granted rounds calls)⟩
  yielded_eq : s.yielded = stream.words64 (granted rounds calls)

variable {stream : ChaCha.Stream} {rounds : Option Nat} {calls : Nat} {s : Session}

namespace Handed

theorem start (stream : ChaCha.Stream) (rounds : Option Nat) (stopped : Bool) :
    Handed stream rounds 0 (Session.start ⟨stream, rounds⟩ stopped) := by
  cases rounds with
  | none => exact ⟨rfl, rfl⟩
  | some n =>
      exact ⟨by simp [Session.start, granted, ChaCha.Stream.after64], by simp [granted]; rfl⟩

/-- A call under a lowered signal takes the next output as long as a round is left. -/
theorem next_served (h : Handed stream rounds calls s) (hdown : s.stopped = false)
    (hleft : RoundLeft rounds calls) :
    s.seeds.next s.stopped = (some (stream.word64 (granted rounds calls)),
      ⟨stream.after64 (granted rounds (calls + 1)),
        rounds.map (· - granted rounds (calls + 1))⟩) := by
  have hnotEmpty : s.seeds.remaining ≠ some 0 := by
    rw [h.seeds_eq]
    intro hempty
    obtain ⟨n, hn, hzero⟩ := Option.map_eq_some_iff.mp hempty
    have hlt : calls < n := hleft n hn
    subst hn
    simp only [granted] at hzero
    omega
  have hremaining : (rounds.map (· - granted rounds calls)).map (· - 1) =
      rounds.map (· - granted rounds (calls + 1)) := by
    simp [granted_succ hleft, Function.comp_def, Nat.sub_sub]
  simp only [RoundSeeds.next, hdown, Bool.false_or, beq_iff_eq, hnotEmpty, if_false]
  simp only [h.seeds_eq, hremaining, granted_succ hleft]
  rfl

/-- A call under a raised signal, or without a round left, returns nothing and changes nothing. -/
theorem next_refused (h : Handed stream rounds calls s)
    (hrefused : s.stopped = true ∨ ¬ RoundLeft rounds calls) :
    s.seeds.next s.stopped = (none, s.seeds) := by
  cases hrefused with
  | inl hup => simp [RoundSeeds.next, hup]
  | inr hspent =>
    obtain ⟨n, hn, hused⟩ := not_roundLeft.mp hspent
    have hempty : s.seeds.remaining = some 0 := by
      simp [h.seeds_eq, hn, granted_used hused]
    simp [RoundSeeds.next, hempty]

theorem step (h : Handed stream rounds calls s) (event : Event) :
    Handed stream rounds (calls + callsDown s.stopped [event]) (s.step event) := by
  -- A call is served if no stop is signalled and a round is left; otherwise it moves nothing.
  cases event with
  | signal stopped => exact ⟨h.seeds_eq, h.yielded_eq⟩
  | call =>
    cases hsignal : s.stopped with
    | true =>
      have hnext := h.next_refused (.inl hsignal)
      have hsame : calls + callsDown true [.call] = calls := rfl
      exact ⟨by simpa [Session.step, hnext, hsame] using h.seeds_eq,
        by simpa [Session.step, hnext, yielded, hsame] using h.yielded_eq⟩
    | false =>
      by_cases hleft : RoundLeft rounds calls
      · have hnext := h.next_served hsignal hleft
        refine ⟨by simp [Session.step, hnext, callsDown, signalsAtCalls], ?_⟩
        have hresults : (s.step .call).results =
            s.results ++ [some (stream.word64 (granted rounds calls))] := by
          simp [Session.step, hnext]
        have hgranted : granted rounds (calls + callsDown false [.call]) =
            granted rounds calls + 1 := granted_succ hleft
        rw [yielded, hresults, List.filterMap_append, hgranted, ChaCha.Stream.words64_succ,
          ← h.yielded_eq]
        rfl
      · have hnext := h.next_refused (.inr hleft)
        have hsame : granted rounds (calls + callsDown false [.call]) = granted rounds calls :=
          granted_spent hleft
        exact ⟨by simpa [Session.step, hnext, hsame] using h.seeds_eq,
          by simpa [Session.step, hnext, yielded, hsame] using h.yielded_eq⟩

/-- A run adds the calls that it makes under a lowered signal. -/
theorem run (h : Handed stream rounds calls s) (events : List Event) :
    Handed stream rounds (calls + callsDown s.stopped events) (s.run events) := by
  induction events generalizing s calls with
  | nil => exact h
  | cons event events ih =>
    have hcalls : callsDown s.stopped (event :: events) =
        callsDown s.stopped [event] + callsDown (s.step event).stopped events := by
      cases event with
      | call => simp [callsDown, signalsAtCalls, Session.step, List.count_cons, Nat.add_comm]
      | signal stopped => simp [callsDown, signalsAtCalls, Session.step]
    rw [hcalls, ← Nat.add_assoc]
    exact ih (h.step event)

/-- Without a round left the calls of every further run return nothing. -/
theorem results_used (h : Handed stream rounds calls s) (hspent : ¬ RoundLeft rounds calls)
    (events : List Event) :
    (s.run events).results =
      s.results ++ List.replicate (signalsAtCalls s.stopped events).length none := by
  induction events generalizing s with
  | nil => simp [Session.run, signalsAtCalls]
  | cons event events ih =>
    have hrun : s.run (event :: events) = (s.step event).run events := rfl
    cases event with
    | call =>
      have hstep : s.step .call = { s with results := s.results ++ [none] } := by
        simp [Session.step, h.next_refused (.inr hspent)]
      have hnext : Handed stream rounds calls (s.step .call) := by
        rw [hstep]
        exact ⟨h.seeds_eq, by simpa [yielded] using h.yielded_eq⟩
      rw [hrun, ih hnext, hstep]
      simp [signalsAtCalls, List.replicate_succ]
    | signal stopped =>
      have hnext : Handed stream rounds calls (s.step (.signal stopped)) :=
        ⟨h.seeds_eq, h.yielded_eq⟩
      rw [hrun, ih hnext]
      rfl

/-- What one session has handed out begins what another of the same stream has, or goes on
from it. -/
theorem comparable {rounds' : Option Nat} {calls' : Nat} {s' : Session}
    (h : Handed stream rounds calls s) (h' : Handed stream rounds' calls' s') :
    s.yielded <+: s'.yielded ∨ s'.yielded <+: s.yielded := by
  rw [h.yielded_eq, h'.yielded_eq]
  cases Nat.le_total (granted rounds calls) (granted rounds' calls') with
  | inl hle => exact .inl (stream.words64_prefix hle)
  | inr hle => exact .inr (stream.words64_prefix hle)

end Handed

/-- A session stands where so many calls under a lowered signal have brought the seeds of a
master seed. -/
structure FollowsMaster (master : UInt64) (rounds : Option Nat) (calls : Nat) (s : Session) :
    Prop where
  /-- The seeds handed out are the first outputs of the master stream. -/
  yielded_eq : s.yielded = (ChaCha.Stream.ofSeed master).words64 (granted rounds calls)
  /-- One draw and one round are used up for each of them. -/
  seeds_eq : s.seeds =
    ⟨(ChaCha.Stream.ofSeed master).after64 (granted rounds calls),
      rounds.map (· - granted rounds calls)⟩
  /-- A call that the signal and the rounds allow takes the next output. -/
  served : s.stopped = false → RoundLeft rounds calls →
    (s.step .call).results = s.results ++
      [some ((ChaCha.Stream.ofSeed master).word64 (granted rounds calls))]
  /-- Every other call returns nothing and leaves draws and rounds alone. -/
  refused : s.stopped = true ∨ ¬ RoundLeft rounds calls →
    s.step .call = { s with results := s.results ++ [none] }
  /-- Once the rounds are used up no further call returns a seed. -/
  used : ¬ RoundLeft rounds calls → ∀ more : List Event,
    (s.run more).results =
      s.results ++ List.replicate (signalsAtCalls s.stopped more).length none
  /-- Any other session of the master seed has handed out a beginning of these seeds, or
  these and more. -/
  comparable : ∀ (rounds' : Option Nat) (stopped : Bool) (events : List Event),
    let s' := (start (.ofMaster master rounds') stopped).run events
    s.yielded <+: s'.yielded ∨ s'.yielded <+: s.yielded

theorem handed_master (master : UInt64) (rounds : Option Nat) (stopped : Bool)
    (events : List Event) :
    Handed (.ofSeed master) rounds (callsDown stopped events)
      ((start (.ofMaster master rounds) stopped).run events) := by
  have hrun := (Handed.start (.ofSeed master) rounds stopped).run events
  rwa [Nat.zero_add] at hrun

/-- Whatever the calls and signals, a session returns what `RoundSeeds.run` does, and hands
out the first outputs of the master stream, as many as there are calls under a lowered signal
and rounds for them. -/
theorem run_followsMaster (master : UInt64) (rounds : Option Nat) (stopped : Bool)
    (events : List Event) :
    ((start (.ofMaster master rounds) stopped).run events).results =
        (RoundSeeds.ofMaster master rounds).run (signalsAtCalls stopped events) ∧
      FollowsMaster master rounds (callsDown stopped events)
        ((start (.ofMaster master rounds) stopped).run events) := by
  have h := handed_master master rounds stopped events
  refine ⟨by simp [results_run, start], ?_⟩
  exact {
    yielded_eq := h.yielded_eq
    seeds_eq := h.seeds_eq
    served := fun hdown hleft => by simp [Session.step, h.next_served hdown hleft]
    refused := fun hrefused => by simp [Session.step, h.next_refused hrefused]
    used := fun hspent more => h.results_used hspent more
    comparable := fun rounds' stopped' events' =>
      h.comparable (handed_master master rounds' stopped' events') }

example : granted (some 2)
    (callsDown false [.call, .signal true, .call, .signal false, .call, .call]) = 2 := rfl

end Session

end RoundSeeds

end TypedPhp
