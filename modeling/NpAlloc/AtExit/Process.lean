/-
**`thread_atexit` on both platforms: the slot that makes the system run the callbacks of a thread.**

The first call of `thread_atexit` in a thread constructs its caller and leaves it with the system, under
a slot that the system hands out of a finite supply:

* on POSIX all threads share one key, which `pthread_once` creates at the first call of the process;
* on Windows every thread takes an index of its own (`FlsAlloc`), and none is ever given back.

When the supply is used up, the system hands out no slot, and the value is set nowhere. At the exit of a
thread the system calls back the thread's caller if its value is set, and does nothing otherwise. The
threads, with everything they and their callbacks call, are those of `AtExit/Model`.
-/

import NpAlloc.AtExit.Model

set_option linter.unusedSectionVars false

namespace NpAlloc.AtExit

inductive Platform
  | posix
  | windows
deriving DecidableEq

/-- The call comes to `thread_atexit`: itself, or through the first use of the thread's pool. -/
def State.registers (s : State) : Op → Bool
  | .alloc | .free false => s.sPool.isNone
  | .free true => false
  | .atexit _ => true

/-- The threads of a process, and the slots of the system. -/
structure Process (T : Type) where
  thread : T → State
  /-- Whether `tls_caller` is set. -/
  tlsCaller : T → Bool
  /-- The slot under which the value of the thread is set. -/
  slot : T → Option Nat
  /-- `s_tls_key`, once `pthread_once` has run; no key is `some none`, and `s_tls_key` is zero then. -/
  tlsKey : Option (Option Nat)
  /-- The threads whose value was set under key zero, whoever it belongs to. -/
  keyZero : T → Bool
  /-- How many slots the system has handed out. -/
  handed : Nat
  /-- The threads that have called `thread_atexit`, the first first; not in the code. -/
  callers : List T

variable {T : Type} [DecidableEq T]

namespace Process

/-- `FlsAlloc` or `pthread_key_create`: a new slot, while there are any. -/
def handOut (supply : Nat) (s : Process T) : Option Nat × Process T :=
  if s.handed < supply then (some s.handed, { s with handed := s.handed + 1 }) else (none, s)

/-- `pthread_once(&s_key_once, create_tls_key)`. -/
def createTlsKey (supply : Nat) (s : Process T) : Process T :=
  match s.tlsKey with
  | some _ => s
  | none => { (s.handOut supply).2 with tlsKey := some (s.handOut supply).1 }

/-- `FlsSetValue`, which fails without an index, or `pthread_setspecific`, which is called with a zero
`s_tls_key` if no key was created. -/
def setValue (platform : Platform) (s : Process T) (t : T) : Option Nat → Process T
  | some slot => { s with slot := Function.update s.slot t (some slot) }
  | none =>
    match platform with
    | .windows => s
    | .posix => { s with keyZero := Function.update s.keyZero t true }

/-- `thread_atexit` up to `add`. -/
def threadAtexit (platform : Platform) (supply : Nat) (s : Process T) (t : T) : Process T :=
  let s := match platform with
    | .posix => s.createTlsKey supply
    | .windows => s
  if s.tlsCaller t then s
  else
    let s := { s with
      tlsCaller := Function.update s.tlsCaller t true
      callers := s.callers ++ [t] }
    match platform with
    | .windows => setValue .windows (s.handOut supply).2 t (s.handOut supply).1
    | .posix => setValue .posix s t (s.tlsKey.bind id)

/-- The thread goes on. -/
def put (s : Process T) (t : T) (thread : State) : Process T :=
  { s with thread := Function.update s.thread t thread }

/-- **One step of one thread.** At the end of its life the system calls back its caller, if it has it. -/
def step (platform : Platform) (supply : Nat) (s : Process T) (t : T) : Option (Process T) :=
  match (s.thread t).control with
  | .life (op :: _) =>
    let called := if (s.thread t).registers op then s.threadAtexit platform supply t else s
    (s.thread t).step.map (called.put t)
  | .life [] =>
    if (s.slot t).isSome then (s.thread t).step.map (s.put t)
    else some (s.put t { s.thread t with control := .ended })
  | _ => (s.thread t).step.map (s.put t)

/-- A process whose threads are about to make these calls. -/
def start (program : T → List Op) : Process T :=
  ⟨fun t => .start (program t), fun _ => false, fun _ => none, none, fun _ => false, 0, []⟩

/-- The machine of a process. -/
def machine (platform : Platform) (supply : Nat) (program : T → List Op) :
    Machine (Process T) T where
  init s := s = start program
  step := step platform supply

end Process

end NpAlloc.AtExit
