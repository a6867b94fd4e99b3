import VCache.Command.Protocol
import VCache.Command.Parser
import VCache.Lib.Lines

/-!
# The client

`VCacheClient.cpp`. As in the server, the client runs from one system call to the next:
inside `command` it waits in `send` or in the `recv` of `readLine`.
-/

namespace VCache

open Lib

structure Reply where
  delivered : Bool := false
  type : ReplyType := .unknown
  payload : Bytes := []
  elements : List Bytes := []
  transportError : Bytes := []
deriving DecidableEq, Repr

namespace VCacheClient

def kChunkSize : Nat := 16384

inductive Phase where
  | idle
  | sending (rest : Bytes)
  | head
  /-- Reading an element, `left` of them still missing. -/
  | elements (left : Nat) (reply : Reply)
deriving DecidableEq, Repr

inductive SysResult where
  | sent (count : Nat)
  | received (chunk : Bytes)
  | closed
  | interrupted
  /-- `EAGAIN`: the time limit of the socket. -/
  | timedOut
  /-- Any other error, and a `send` that returned `0`. -/
  | failed (why : Bytes)
deriving DecidableEq, Repr

end VCacheClient

/-- `connected` is `fd_ >= 0`; `replies` records what the calls of `command` returned. -/
structure VCacheClient where
  connected : Bool := false
  buffer : Bytes := []
  phase : VCacheClient.Phase := .idle
  replies : List Reply := []
deriving DecidableEq, Repr

namespace VCacheClient

def disconnect (c : VCacheClient) : VCacheClient := { c with connected := false, buffer := [] }

def connect (c : VCacheClient) : VCacheClient := { c.disconnect with connected := true }

def finish (c : VCacheClient) (reply : Reply) : VCacheClient :=
  { c with phase := .idle, replies := c.replies ++ [reply] }

def fail (c : VCacheClient) (reply : Reply) (why : Bytes) : VCacheClient :=
  c.disconnect.finish { reply with transportError := why }

def command (c : VCacheClient) (commandLine : Bytes) : VCacheClient :=
  if !c.connected then c.finish { transportError := bytes "not connected" }
  else { c with phase := .sending (commandLine ++ [Ascii.lf]) }

/-- The head of the loop over the elements. -/
def nextElement (c : VCacheClient) (left : Nat) (reply : Reply) : VCacheClient :=
  if left = 0 then c.finish { reply with delivered := true }
  else { c with phase := .elements left reply }

def onHead (c : VCacheClient) (line : Bytes) : VCacheClient :=
  let head := Protocol.parse line
  if head.type = .unknown then c.fail {} (bytes "unrecognised reply tag in: " ++ line)
  else
    let reply : Reply := { type := head.type, payload := head.payload }
    if head.type = .array then
      match Protocol.parseCount head.payload with
      | none => c.fail reply (bytes "malformed array header: " ++ line)
      | some count => c.nextElement count { reply with payload := [] }
    else c.finish { reply with delivered := true }

def onElement (c : VCacheClient) (left : Nat) (reply : Reply) (line : Bytes) : VCacheClient :=
  let element := Protocol.parse line
  if element.type = .unknown then c.fail reply (bytes "unrecognised element tag in: " ++ line)
  else c.nextElement (left - 1) { reply with elements := reply.elements ++ [element.payload] }

/-- `readLine` has returned `line`. -/
def onLine (c : VCacheClient) (line : Bytes) : VCacheClient :=
  match c.phase with
  | .head => c.onHead line
  | .elements left reply => c.onElement left reply line
  | _ => c

/-- The client reads lines out of its buffer until it is done or needs more bytes. A round
takes a byte at least. -/
def readLines : Nat → VCacheClient → VCacheClient
  | 0, c => c
  | fuel + 1, c =>
    if c.phase = .idle then c
    else
      match cutFirst Ascii.lf c.buffer with
      | none => c
      | some (line, after) => readLines fuel ({ c with buffer := after }.onLine line)

def read (c : VCacheClient) : VCacheClient := c.readLines (c.buffer.length + 1)

/-- What the reply holds when reading it fails. -/
def partialReply (c : VCacheClient) : Reply :=
  match c.phase with
  | .elements _ reply => reply
  | _ => {}

/-- What the client does with the result of the call it waits in. -/
def resume (c : VCacheClient) (result : SysResult) : VCacheClient :=
  match c.phase, result with
  | .idle, _ => c
  | _, .interrupted => c
  | .sending rest, .sent count =>
    if count < rest.length then { c with phase := .sending (rest.drop count) }
    else read { c with phase := .head }
  | .sending _, .failed why => c.fail {} (bytes "send failed: " ++ why)
  | .sending _, _ => c.fail {} (bytes "send failed: ")
  | _, .received chunk => read { c with buffer := c.buffer ++ chunk }
  | _, .closed => c.fail c.partialReply (bytes "server closed the connection")
  | _, .timedOut => c.fail c.partialReply (bytes "timed out waiting for a reply")
  | _, .failed why => c.fail c.partialReply (bytes "read failed: " ++ why)
  | _, .sent _ => c

end VCacheClient

end VCache
