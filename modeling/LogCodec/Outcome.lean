/-! # Outcomes of reading

    Reading a stream for an event ends in one of three ways: there is one,
    the stream has ended as it should, or something went wrong. -/

namespace LogCodec

/-- How an attempt to read ended. -/
inductive Outcome (ε : Type u) (α : Type v) where
  /-- What was asked for. -/
  | found (value : α)
  /-- The stream has ended; there is nothing more. -/
  | done
  | failed (error : ε)
deriving DecidableEq

namespace Outcome

variable {ε : Type u} {α : Type v} {β : Type w}

def isFound : Outcome ε α → Bool
  | found _ => true
  | _ => false

def isDone : Outcome ε α → Bool
  | done => true
  | _ => false

/-- Nothing bad happened. -/
def isOk : Outcome ε α → Bool
  | found _ | done => true
  | failed _ => false

def isFailed (o : Outcome ε α) : Bool := !o.isOk

/-- What was found. -/
def value? : Outcome ε α → Option α
  | found value => some value
  | _ => none

/-- What went wrong. -/
def error? : Outcome ε α → Option ε
  | failed error => some error
  | _ => none

/-- Changes what was found, and nothing else. -/
def map (f : α → β) : Outcome ε α → Outcome ε β
  | found value => found (f value)
  | done => done
  | failed error => failed error

/-- The text of an outcome, which does not show what was found. -/
def display (describe : ε → String) : Outcome ε α → String
  | found _ => "ResultS3::Found"
  | done => "ResultS3::Done"
  | failed error => "ResultS3::Err(" ++ describe error ++ ")"

end Outcome

end LogCodec
