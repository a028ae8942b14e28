import Mos.Kern.Env

/-!
# The scheduler (`kern/sched.c`) and `env_destroy`

`schedule` does not return: it ends in `env_run`, and the frame that is popped is the `env_tf` of the environment it
picked.
-/

namespace Mos

namespace Kern

/-- The condition under which `schedule` picks a new environment from the queue. -/
def mustPick (k : Kern) (yield : Bool) : Bool :=
  match k.curenv with
  | none => true
  | some e => yield || k.count = 0 || (k.envs e).envStatus ≠ .RUNNABLE

/-- Takes `curenv` off the queue, whether it is on it or not, and puts it back at the tail if it is runnable. -/
def requeue (k : Kern) : Option Kern :=
  match k.curenv with
  | none => some k
  | some e =>
    (k.sched.remove e).bind fun q =>
      if (k.envs e).envStatus = .RUNNABLE then (q.insertTail e).map k.setSched else some (k.setSched q)

def decCount (count : Int) : Int := if 0 < count then count - 1 else count

def schedule (k : Kern) (yield : Bool) : Option Kern :=
  if k.mustPick yield then
    k.requeue.bind fun k =>
      k.sched.first.bind fun e =>
        (k.setCount (decCount (k.envs e).envPri.toInt)).envRun e
  else
    k.curenv.bind fun e => (k.setCount (decCount k.count)).envRun e

/-- The second component tells whether `schedule` was entered. -/
def envDestroy (k : Kern) (e : EnvPtr) : Option (Kern × Bool) :=
  (k.envFree e).bind fun k =>
    if k.curenv = some e then
      ((k.setCurenv none).schedule true).map fun k => (k, true)
    else some (k, false)

end Kern

end Mos
