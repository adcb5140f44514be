/-!
# Sources of bytes

What a stream sees of its input is the outcome of each read. A `Source` is an input together with
the way it delivers its bytes: a plan says how the first reads go, and after the plan each read gets
as much as is asked for.
-/

namespace TokenTree

/-- Why a source fails. -/
inductive ReadErrorKind where
  /-- The other end has gone. -/
  | brokenPipe
  /-- Any other reason. -/
  | other
  deriving DecidableEq, Repr

/-- The failure of a source. -/
structure ReadError where
  /-- The kind of failure. -/
  kind : ReadErrorKind
  /-- What the source says about it. -/
  message : String
  deriving DecidableEq, Repr

/-- The outcome of one read. -/
inductive Read where
  /-- These bytes; none at the end of the input. -/
  | bytes (bytes : List UInt8)
  /-- Nothing this time; the read is to be repeated. -/
  | interrupted
  /-- A failure. -/
  | failed (error : ReadError)
  deriving DecidableEq, Repr

/-- How one read goes. -/
inductive Delivery where
  /-- It gets so many bytes at most. -/
  | atMost (count : Nat)
  /-- It is interrupted. -/
  | interrupted
  /-- It fails. -/
  | failed (error : ReadError)
  deriving DecidableEq, Repr

/-- An input and how it is delivered. -/
structure Source where
  /-- The bytes of the input. -/
  data : List UInt8
  /-- How the first reads go. -/
  plan : List Delivery

namespace Source

/-- The outcomes of at most `fuel` reads of `size` bytes each, and of one at the end. -/
def pieces (size : Nat) : (fuel : Nat) → List UInt8 → List Read
  | 0, _ => [.bytes []]
  | fuel + 1, data =>
    if data.isEmpty then [.bytes []]
    else .bytes (data.take size) :: pieces size fuel (data.drop size)

/-- The outcomes of reads of at most `size` bytes each. -/
def readsFrom (size : Nat) : List Delivery → List UInt8 → List Read
  | [], data => pieces size data.length data
  | .atMost count :: plan, data =>
    .bytes (data.take (min count size)) :: readsFrom size plan (data.drop (min count size))
  | .interrupted :: plan, data => .interrupted :: readsFrom size plan data
  | .failed error :: plan, data => .failed error :: readsFrom size plan data

/-- The outcomes of reads of at most `size` bytes each, up to the end of the input. -/
def reads (s : Source) (size : Nat) : List Read := readsFrom size s.plan s.data

end Source

end TokenTree
