import Mathlib.Data.List.Basic

namespace Qthreads.Io

/-! From `qt_blocking_structs.h` and the `switch` of `qt_process_blocking_call` in `io.c`. -/

abbrev Word := BitVec 64

/-- `int`, `pid_t` and `socklen_t` -/
abbrev Half := BitVec 32

/-- What `memcpy(&n, &item->args[i], sizeof(int))` and the cast `(int)item->args[i]` give. -/
def Word.half (word : Word) : Half := word.setWidth 32

/-- `syscall_t` -/
inductive Syscall where
  | accept | connect | nanosleep | poll | read | pread | select | sleep | system | usleep | wait4
  | write | pwrite | userDefined
deriving DecidableEq

structure Task where
  id : Nat
  shepherd : Nat
deriving DecidableEq

structure Job where
  thread : Task
  op : Syscall
  args : Fin 5 → Word

/-- A system call with its arguments; `userDefined` is `qthread_exec` of the task itself. -/
inductive Call where
  | accept (socket : Half) (address addressLen : Word)
  | connect (socket : Half) (address : Word) (addressLen : Half)
  | nanosleep (rqtp rmtp : Word)
  | poll (fds nfds : Word) (timeout : Half)
  | read (filedes : Half) (buf nbyte : Word)
  | pread (filedes : Half) (buf nbyte offset : Word)
  | select (nfds : Half) (readfds writefds errorfds timeout : Word)
  | sleep (seconds : Half)
  | system (command : Word)
  | usleep (useconds : Half)
  | wait4 (pid : Half) (statLoc : Word) (options : Half) (rusage : Word)
  | write (filedes : Half) (buf nbyte : Word)
  | pwrite (filedes : Half) (buf nbyte offset : Word)
  | userDefined (thread : Task)
deriving DecidableEq

namespace Job

variable (job : Job)

/-- The call that the job's `op` names, with the job's arguments. -/
def named : Call :=
  match job.op with
  | .accept => .accept (job.args 0).half (job.args 1) (job.args 2)
  | .connect => .connect (job.args 0).half (job.args 1) (job.args 2).half
  | .nanosleep => .nanosleep (job.args 0) (job.args 1)
  | .poll => .poll (job.args 0) (job.args 1) (job.args 2).half
  | .read => .read (job.args 0).half (job.args 1) (job.args 2)
  | .pread => .pread (job.args 0).half (job.args 1) (job.args 2) (job.args 3)
  | .select => .select (job.args 0).half (job.args 1) (job.args 2) (job.args 3) (job.args 4)
  | .sleep => .sleep (job.args 0).half
  | .system => .system (job.args 0)
  | .usleep => .usleep (job.args 0).half
  | .wait4 => .wait4 (job.args 0).half (job.args 1) (job.args 2).half (job.args 3)
  | .write => .write (job.args 0).half (job.args 1) (job.args 2)
  | .pwrite => .pwrite (job.args 0).half (job.args 1) (job.args 2) (job.args 3)
  | .userDefined => .userDefined job.thread

/-- The calls that the `switch` makes.  An `op` without a case of its own runs on into `ACCEPT`, and
`WRITE` runs on into `PWRITE`. -/
def dispatch : List Call :=
  match job.op with
  | .accept | .nanosleep | .sleep | .usleep => [.accept (job.args 0).half (job.args 1) (job.args 2)]
  | .connect => [.connect (job.args 0).half (job.args 1) (job.args 2).half]
  | .poll => [.poll (job.args 0) (job.args 1) (job.args 2).half]
  | .read => [.read (job.args 0).half (job.args 1) (job.args 2)]
  | .pread => [.pread (job.args 0).half (job.args 1) (job.args 2) (job.args 3)]
  | .select => [.select (job.args 0).half (job.args 1) (job.args 2) (job.args 3) (job.args 4)]
  | .system => [.system (job.args 0)]
  | .wait4 => [.wait4 (job.args 0).half (job.args 1) (job.args 2).half (job.args 3)]
  | .write =>
    [.write (job.args 0).half (job.args 1) (job.args 2),
      .pwrite (job.args 0).half (job.args 1) (job.args 2) (job.args 3)]
  | .pwrite => [.pwrite (job.args 0).half (job.args 1) (job.args 2) (job.args 3)]
  | .userDefined => [.userDefined job.thread]

/-- `item->ret` after the `switch`, where the last call returned `answer`. -/
def result (before answer : Word) : Word :=
  match job.op with
  | .userDefined => before
  | _ => answer

/-- The job's `op` has a case of its own, and this case ends with a `break`. -/
def Ended : Prop :=
  job.op ≠ .nanosleep ∧ job.op ≠ .sleep ∧ job.op ≠ .usleep ∧ job.op ≠ .write

instance : Decidable job.Ended :=
  inferInstanceAs (Decidable (_ ∧ _))

theorem dispatch_eq_named_iff : job.dispatch = [job.named] ↔ job.Ended := by
  cases op : job.op <;> simp [dispatch, named, Ended, op]

end Job

end Qthreads.Io
