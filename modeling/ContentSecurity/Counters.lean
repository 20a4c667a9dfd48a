/-!
What a deployment counts, and the report on it.
-/
namespace ContentSecurity

structure Counters where
  requests : Nat
  compiles : Nat
  failures : Nat
  headers : Nat
  updates : Nat
  /-- Passes that ended with headers in place. -/
  timed : Nat
  deriving DecidableEq, Repr

namespace Counters

def zero : Counters := ⟨0, 0, 0, 0, 0, 0⟩

instance : Inhabited Counters := ⟨zero⟩

def countRequest (counters : Counters) : Counters :=
  { counters with requests := counters.requests + 1 }

/-- Counts a compilation and, if it was refused, a failure. -/
def countCompile (counters : Counters) (succeeded : Bool) : Counters :=
  { counters with
    compiles := counters.compiles + 1
    failures := counters.failures + if succeeded then 0 else 1 }

def countUpdate (counters : Counters) : Counters :=
  { counters with updates := counters.updates + 1 }

/-- Counts a pass that put so many headers in place. -/
def countPass (counters : Counters) (headers : Nat) : Counters :=
  { counters with headers := counters.headers + headers, timed := counters.timed + 1 }

/-- The lines of the report that need no clock. As long as no pass was timed the mean time is
zero. -/
def report (counters : Counters) : List String :=
  ["CSP Middleware Statistics:",
    s!"  Requests processed: {counters.requests}",
    s!"  Policies compiled: {counters.compiles}",
    s!"  Compilation failures: {counters.failures}",
    s!"  Headers emitted: {counters.headers}",
    s!"  Policy reloads: {counters.updates}"] ++
  if counters.timed = 0 then ["  Average header generation time: 0.00 ns"] else []

end Counters

end ContentSecurity
