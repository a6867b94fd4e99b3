import VCache.Command.Executor
import VCache.Lib.Lines

/-!
# A connection

`Server::handleConnection`, `sendLine` and `sendAll`. The handler runs from one system call
to the next: it waits in `recv`, or in a `send` with some bytes still to go, and `resume` is
what it does with the result. The executor is a parameter: `exec i state line` is the
`i`-th call of `execute`.
-/

namespace VCache

open Lib

namespace Server

def kReadChunkSize : Nat := 64 * 1024

inductive Phase where
  | receiving
  /-- In `sendAll` with `rest` to go. With `drop` the connection goes after it. -/
  | sending (rest : Bytes) (drop : Bool)
  | finished
deriving DecidableEq, Repr

inductive SysResult where
  | received (chunk : Bytes)
  | closed
  | accepted (count : Nat)
  | interrupted
  | failed
  /-- `running_` was found false at the head of the loop. -/
  | stopped
deriving DecidableEq, Repr

/-- The handler of one connection. `executed` and `sent` record what it has done. -/
structure Handler (σ : Type) where
  state : σ
  pending : Bytes := []
  phase : Phase := .receiving
  executed : List Bytes := []
  sent : Bytes := []

variable {σ : Type} (maxRequestBytes : Nat) (exec : Nat → σ → Bytes → σ × Option Bytes)

def framed (line : Bytes) : Bytes := line ++ [Ascii.lf]

namespace Handler

/-- The handler has cut `line` off `pending` and executed it. -/
def executeLine (h : Handler σ) (line after : Bytes) : Handler σ × Option Bytes :=
  let r := exec h.executed.length h.state line
  ({ h with state := r.1, pending := after, executed := h.executed ++ [line] }, r.2)

/-- The inner loop, up to the next reply, and the size check behind it. A round takes a
byte at least, so `pending.length + 1` rounds are enough. -/
def cutLines : Nat → Handler σ → Handler σ
  | 0, h => h
  | fuel + 1, h =>
    match cutFirst Ascii.lf h.pending with
    | none =>
      if h.pending.length > maxRequestBytes then
        { h with phase := .sending (framed (Protocol.error (bytes "ERR request too large"))) true }
      else { h with phase := .receiving }
    | some (line, after) =>
      match h.executeLine exec line after with
      | (h, none) => cutLines fuel h
      | (h, some response) => { h with phase := .sending (framed response) false }

def cut (h : Handler σ) : Handler σ := h.cutLines maxRequestBytes exec (h.pending.length + 1)

/-- What the handler does with the result of the call it waits in. -/
def resume (h : Handler σ) (result : SysResult) : Handler σ :=
  match h.phase, result with
  | .receiving, .received chunk => cut maxRequestBytes exec { h with pending := h.pending ++ chunk }
  | .receiving, .interrupted => h
  | .receiving, _ => { h with phase := .finished }
  | .sending rest drop, .accepted count =>
    let h := { h with
      sent := h.sent ++ rest.take count
      phase := .sending (rest.drop count) drop }
    if count < rest.length then h
    else if drop then { h with phase := .finished }
    else cut maxRequestBytes exec h
  | .sending _ _, .interrupted => h
  | .sending _ _, _ => { h with phase := .finished }
  | .finished, _ => h

end Handler

/-- The run of a handler that has received `chunks`, one `recv` each, while `running_` holds
and no call fails. A `send` takes what it likes. -/
inductive Serves (start : σ) : List Bytes → Handler σ → Prop where
  | start : Serves start [] { state := start }
  | receive {chunks : List Bytes} {h : Handler σ} {chunk : Bytes} : Serves start chunks h →
      h.phase = .receiving → chunk ≠ [] → chunk.length ≤ kReadChunkSize →
      Serves start (chunks ++ [chunk]) (h.resume maxRequestBytes exec (.received chunk))
  | send {chunks : List Bytes} {h : Handler σ} {rest : Bytes} {drop : Bool} {count : Nat} :
      Serves start chunks h → h.phase = .sending rest drop → count ≤ rest.length →
      Serves start chunks (h.resume maxRequestBytes exec (.accepted count))
  | interrupted {chunks : List Bytes} {h : Handler σ} : Serves start chunks h →
      Serves start chunks (h.resume maxRequestBytes exec .interrupted)

/-- The executor of a connection on `db`: the `i`-th call finds `env i`. -/
def executor (env : Nat → CommandExecutor.Env) (i : Nat) (db : Database) (line : Bytes) :
    Database × Option Bytes :=
  CommandExecutor.execute db line (env i)

end Server

end VCache
