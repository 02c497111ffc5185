import Ecopy.Protocol.Codec

/-!
# Message types and frames

A frame on the wire is a header of thirteen bytes followed by the payload. The
constants are those of `protocol.h`.
-/
namespace Ecopy.Protocol

inductive MsgType where
  | hello
  | helloOk
  | mkdir
  | stat
  | statResp
  | statBulk
  | statBulkResp
  | open
  | write
  | ftruncate
  | commit
  | abort
  | setmeta
  | unlink
  | status
  | bye
  | putfile
  | barrier
  | verifyPath
  | symlink
  | link
deriving DecidableEq, Repr

def MsgType.code : MsgType → UInt8
  | .hello => 1
  | .helloOk => 2
  | .mkdir => 3
  | .stat => 4
  | .statResp => 5
  | .statBulk => 6
  | .statBulkResp => 7
  | .open => 8
  | .write => 9
  | .ftruncate => 10
  | .commit => 11
  | .abort => 12
  | .setmeta => 13
  | .unlink => 14
  | .status => 15
  | .bye => 16
  | .putfile => 17
  | .barrier => 18
  | .verifyPath => 19
  | .symlink => 20
  | .link => 21

structure Frame where
  type : MsgType
  id : UInt64
  payload : Bytes
deriving DecidableEq, Repr

/-- `ECOPY_MAX_FRAME`, the largest payload a peer reads. -/
def maxFrame : ℕ := 16 * 1024 * 1024

def protoVersion : UInt32 := 10
def capFallocate : UInt32 := 1
def capSparse : UInt32 := 2
def optPreserveTimes : UInt32 := 1
def optServerBuffered : UInt32 := 2
def openSparse : UInt32 := 1
def openInplace : UInt32 := 2

end Ecopy.Protocol
