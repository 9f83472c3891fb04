/-! util/errcode.h and the ways a call can fail to return at all. -/
namespace ZCell

inductive Status where
  | success
  | unknownOp
  | invalidOp
  | msgrEagain
  | msgrConnectException
  | ostoreUnsupportedOperation
  | ostoreObjectExist
  | ostoreObjectNotExist
  | ostoreNoSpace
  | ostoreNoNode
  | ostoreWriteOutMaxSize
  | ostoreReadEof
  | ostoreReadHole
  | ostoreIoError
  | ostoreInternalUnknownError
  deriving DecidableEq, Repr

/-- The value of the enumerator; `MSGR_EAGAIN` restarts the count at 16. -/
def Status.code : Status → Int
  | .success => 0
  | .unknownOp => 1
  | .invalidOp => 2
  | .msgrEagain => 16
  | .msgrConnectException => 17
  | .ostoreUnsupportedOperation => 18
  | .ostoreObjectExist => 19
  | .ostoreObjectNotExist => 20
  | .ostoreNoSpace => 21
  | .ostoreNoNode => 22
  | .ostoreWriteOutMaxSize => 23
  | .ostoreReadEof => 24
  | .ostoreReadHole => 25
  | .ostoreIoError => 26
  | .ostoreInternalUnknownError => 27

/-- Why a call does not come back: a failed `assert`, an access outside a local work array,
outside the mapped persistent memory or the storage of an allocator bitmap, a null pointer. -/
inductive Fault where
  | assertion
  | workArray
  | pmRange
  | bitmapRange
  | nullPointer
  deriving DecidableEq, Repr

end ZCell
