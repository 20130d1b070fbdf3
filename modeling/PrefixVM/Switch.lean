/-!
Cancellation. A switch starts in the running position and is thrown once; whoever works under it looks
at it before each step and goes on only while it has not been thrown.
-/
namespace PrefixVM

structure Switch where
  thrown : Bool := false
  deriving DecidableEq, Repr

namespace Switch

def mayRun (s : Switch) : Bool :=
  !s.thrown

/-- Throws the switch. The answer tells whether this was the first time. -/
def stop (s : Switch) : Bool × Switch :=
  (!s.thrown, { thrown := true })

@[simp] theorem mayRun_stop (s : Switch) : s.stop.2.mayRun = false := rfl

end Switch

end PrefixVM
