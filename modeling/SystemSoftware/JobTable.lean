import SystemSoftware.DecimalText
import SystemSoftware.Transitions
import Mathlib.Logic.Function.Basic

/-!
The job table of the shell: module/jobs.c. The table jobs_list points to jobs on
the heap; freeing a job leaves its pointer in the table. Following a pointer to a
job that has been freed, or NULL, is the result `none`. Jobs are numbered as they
are allocated, and those freed and those reported Done are listed.
-/
namespace SystemSoftware.JobTable

open DecimalText Transitions

abbrev maxJobs : ℕ := 1024

inductive JobState
  | running
  | suspended
  | terminated
  deriving DecidableEq

structure Job where
  pgid : ℕ
  state : JobState
  cmdline : Text
  deriving DecidableEq

structure State where
  jobsList : ℕ → Option ℕ
  jobsDone : ℕ → ℕ
  jobsFront : ℕ
  jobsRear : ℕ
  jobsN : ℤ
  heap : ℕ → Option Job
  inserted : ℕ
  freed : List ℕ
  reported : List ℕ

def State.window (s : State) : List ℕ := List.range' s.jobsFront (s.jobsRear - s.jobsFront)

def State.deref (s : State) (i : ℕ) : Option (ℕ × Job) := do
  let p ← s.jobsList i
  let job ← s.heap p
  some (p, job)

def State.setState (s : State) (p : ℕ) (job : Job) (st : JobState) : State :=
  { s with heap := Function.update s.heap p (some { job with state := st }) }

def State.free (s : State) (p : ℕ) : State :=
  { s with heap := Function.update s.heap p none, freed := s.freed ++ [p], jobsN := s.jobsN - 1 }

def insertJobs (s : State) (job : Job) : State :=
  { s with
    jobsN := s.jobsN + 1
    heap := Function.update s.heap s.inserted (some job)
    jobsList := Function.update s.jobsList s.jobsRear (some s.inserted)
    jobsRear := s.jobsRear + 1
    inserted := s.inserted + 1 }

def printJobs (s : State) : Option (List (ℕ × JobState × Text)) :=
  s.window.mapM fun i => do
    let (_, job) ← s.deref i
    some (i, job.state, job.cmdline)

/-- The loop of `print_done_jobs` from jobs_done[i] on, which has MAXJOBS places. -/
def printDoneFrom : ℕ → ℕ → State → Option State
  | 0, _, _ => none
  | fuel + 1, i, s =>
    if s.jobsDone i = 0 then some s
    else do
      let (p, _) ← s.deref (s.jobsDone i)
      let s := { s with reported := s.reported ++ [p] }
      printDoneFrom fuel (i + 1) { s.free p with jobsDone := Function.update s.jobsDone i 0 }

def printDoneJobs (s : State) : Option State := printDoneFrom maxJobs 0 s

/-- The loop of `reap_dead_jobs` over entries of the table, from jobs_done[j] on. -/
def reapFrom (s : State) : List ℕ → ℕ → (ℕ → ℕ) → Option (ℕ → ℕ)
  | [], _, done => some done
  | i :: is, j, done => do
    let (_, job) ← s.deref i
    if job.state = .terminated then reapFrom s is (j + 1) (Function.update done j i)
    else reapFrom s is j done

def reapDeadJobs (s : State) : Option State := do
  let done ← reapFrom s s.window 0 s.jobsDone
  let s := { s with jobsDone := done }
  some (if s.jobsN = 0 then { s with jobsFront := 1, jobsRear := 1 } else s)

def skipNull (s : State) : ℕ → ℕ → Option ℕ
  | 0, _ => none
  | fuel + 1, i => if (s.jobsList i).isNone then skipNull s fuel (i + 1) else some i

def findFrom (s : State) (pid : ℕ) : List ℕ → Option (Option ℕ)
  | [] => some none
  | i :: is => do
    let (_, job) ← s.deref i
    if job.pgid = pid then some (some i) else findFrom s pid is

/-- `find_jobs_by_pid`, which moves jobs_front; the inner `none` is the result -1. -/
def findJobsByPid (s : State) (pid : ℕ) : Option (State × Option ℕ) := do
  let i ← skipNull s (maxJobs - s.jobsFront) s.jobsFront
  let s := { s with jobsFront := i }
  let found ← findFrom s pid s.window
  some (s, found)

/-- What the handler of SIGCHLD does for a child that has exited. -/
def terminate (s : State) (pid : ℕ) : Option State := do
  let (s, found) ← findJobsByPid s pid
  match found with
  | none => some s
  | some index => do
    let (p, job) ← s.deref index
    some (s.setState p job .terminated)

/-- `fg` for a job number; `stopped` tells whether the job stops again. -/
def fg (s : State) (index : ℕ) (stopped : Bool) : Option State := do
  let (p, job) ← s.deref index
  if job.state = .terminated then some s
  else
    let s := s.free p
    some (if stopped then insertJobs s { job with state := .suspended } else s)

def mark (s : State) (index : ℕ) (st : JobState) : Option State := do
  let (p, job) ← s.deref index
  if job.state = .terminated then some s else some (s.setState p job st)

def bg (s : State) (index : ℕ) : Option State := mark s index .running

def killJob (s : State) (index : ℕ) : Option State := mark s index .terminated

inductive Op
  | insert (job : Job)
  | terminate (pid : ℕ)
  | reapDeadJobs
  | printDoneJobs
  | printJobs
  | fg (index : ℕ) (stopped : Bool)
  | bg (index : ℕ)
  | killJob (index : ℕ)

/-- An operation on the table; `none` follows a pointer to a job that is not there. -/
def exec (s : State) : Op → Option State
  | .insert job => some (insertJobs s job)
  | .terminate pid => terminate s pid
  | .reapDeadJobs => reapDeadJobs s
  | .printDoneJobs => printDoneJobs s
  | .printJobs => (printJobs s).map fun _ => s
  | .fg index stopped => fg s index stopped
  | .bg index => bg s index
  | .killJob index => killJob s index

def live (s : State) (i : ℕ) : Bool := (s.deref i).isSome

def serves (s : State) (pid i : ℕ) : Bool := (s.deref i).any fun j => j.2.pgid = pid

/-- Fewer than MAXJOBS insertions, job numbers of live jobs, and children that are jobs. -/
def valid (s : State) : Op → Bool
  | .insert _ => s.inserted + 1 < maxJobs
  | .terminate pid => s.window.any (serves s pid)
  | .fg index stopped =>
    index ∈ s.window && live s index && (!stopped || s.inserted + 1 < maxJobs)
  | .bg index | .killJob index => index ∈ s.window && live s index
  | _ => true

/-- The entries that an operation goes through are of live jobs: all of them, or those
up to the job that has terminated. -/
def clear (s : State) : Op → Bool
  | .reapDeadJobs | .printJobs => s.window.all (live s)
  | .terminate pid => (s.window.takeWhile fun i => !serves s pid i).all (live s)
  | _ => true

def next (s : State) (op : Op) : Option State := if valid s op then exec s op else none

def initial : State where
  jobsList _ := none
  jobsDone _ := 0
  jobsFront := 1
  jobsRear := 1
  jobsN := 0
  heap _ := none
  inserted := 0
  freed := []
  reported := []

def runs : System State Op := System.ofNext (· = initial) next

end SystemSoftware.JobTable
