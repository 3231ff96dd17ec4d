import LogCodec.Reader.Source

/-! # Bursts

    Compressed data is inflated in bursts, and a read gives the bytes of one or
    more of them.  Bytes of a burst for which a read has no room are held for the
    reads after it, and while any are held nothing else is given.

    A read that meets invalid data fails.  What the bursts before it in the same
    read gave is lost then.

    - `Burst`: what is known of a burst beside its bytes.
    - `Outflow.step`: one read. -/

namespace LogCodec.Gzip

/-- The failure of reading invalid data. -/
def badData : String := "corrupt deflate stream"

/-- How a burst ended. -/
inductive Burst.Ending where
  /-- The window was full. -/
  | more
  /-- A piece of the input was used up.  A read that has something to give ends
      here. -/
  | pause
  /-- There is nothing more. -/
  | last
  /-- The data is invalid, and the burst is lost. -/
  | spoiled
deriving DecidableEq

/-- A burst. -/
structure Burst where
  /-- The number of its bytes. -/
  size : Nat
  ending : Burst.Ending
  /-- How many bytes of the file had been taken. -/
  taken : Nat
deriving DecidableEq

/-- What is still to be given. -/
structure Outflow where
  /-- Bytes that are held from the burst before. -/
  held : Nat
  bursts : List Burst
  /-- How many bytes of the file were taken so far. -/
  taken : Nat
deriving DecidableEq

namespace Outflow

/-- Gives from bursts, when so much was given already in this read. -/
def collect (room given taken : Nat) : List Burst → Source.Turn × Outflow
  | [] => (⟨0, .give given⟩, ⟨0, [], taken⟩)
  | burst :: rest =>
    let size := min burst.size room
    let given := given + size
    let goesOn : Bool := burst.ending = .more || (burst.ending = .pause && given = 0)
    if burst.ending = .spoiled then (⟨0, .fail badData⟩, ⟨0, burst :: rest, burst.taken⟩)
    else if goesOn && burst.size < room then collect (room - size) given burst.taken rest
    else (⟨0, .give given⟩, ⟨burst.size - size, rest, burst.taken⟩)

/-- One read.  Input for the next burst is taken before held bytes are given. -/
def step (o : Outflow) (room : Nat) : Source.Turn × Outflow :=
  if 0 < o.held then
    let size := min o.held room
    let taken :=
      match o.bursts with
      | [] => o.taken
      | burst :: _ => burst.taken
    (⟨0, .give size⟩, { o with held := o.held - size, taken })
  else collect room 0 o.taken o.bursts

end Outflow

end LogCodec.Gzip
