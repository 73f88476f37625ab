import KvProxy.Lib.ByteMem
import KvProxy.Lib.MachineInt

/-!
# The interface between the proxy and a protocol extension

The types of `extension.h`.  A request or response item does not own bytes:
`key` and `content` are pointers, here offsets from the start of the buffer
the item was parsed from.  Of the eight bytes of `ext` only the first is ever
set or tested, and it is the one kept.
-/

namespace KvProxy

/-- `ext_ret_t`. -/
inductive ExtRet where
  | again
  | success
  | error
  | ignore
  deriving DecidableEq, Repr

/-- `req_t`. -/
structure Req where
  key : Int
  keyLen : Nat
  content : Int
  contentLen : Nat
  update : Bool
  each : Bool
  ext : UInt8
  deriving DecidableEq, Repr

/-- `resp_t`. -/
structure Resp where
  content : Int
  contentLen : Nat
  ext : UInt8
  deriving DecidableEq, Repr

/-- `comm_t`: an item that owns its bytes. -/
structure Comm where
  content : List UInt8
  ext : UInt8
  deriving DecidableEq, Repr

/-- The mark `'e'` of an item that ends a batch. -/
def endMark : UInt8 := 101

/-- The bytes a request denotes in the buffer it was parsed from. -/
def Req.bytes (r : Req) (originReq : ByteMem) : List UInt8 :=
  originReq.slice r.content r.contentLen

/-- The bytes of a request's key. -/
def Req.keyBytes (r : Req) (originReq : ByteMem) : List UInt8 :=
  originReq.slice r.key r.keyLen

/-- The bytes a response denotes in the buffer it was parsed from. -/
def Resp.bytes (r : Resp) (originResp : ByteMem) : List UInt8 :=
  originResp.slice r.content r.contentLen

end KvProxy
