import VCache.Command.Parser
import VCache.Command.Protocol
import VCache.Database.Model
import VCache.Snapshot.Store

/-!
# The command executor

`CommandExecutor.cpp`. A call of `execute` finds a database, clock readings and, when a
snapshot store is configured, a file system that decides the outcome of a save.
-/

namespace VCache

open Database (Op Answer)

namespace CommandExecutor

def hexDigit (d : UInt8) : UInt8 := if d < 10 then 48 + d else 87 + d

def appendHexByte (byte : UInt8) : Bytes :=
  [Ascii.backslash, 120, hexDigit (byte >>> 4), hexDigit (byte &&& 0x0f)]

/-- What `escapeForWire` writes for one byte. -/
def escapeByte (c : UInt8) : Bytes :=
  if c = Ascii.backslash then [Ascii.backslash, Ascii.backslash]
  else if c = Ascii.lf then [Ascii.backslash, 110]
  else if c = Ascii.cr then [Ascii.backslash, 114]
  else if c = Ascii.tab then [Ascii.backslash, 116]
  else if c = Ascii.quote then [Ascii.backslash, Ascii.quote]
  else if c < 0x20 || 0x7f ≤ c then appendHexByte c
  else [c]

def escapeForWire (raw : Bytes) : Bytes := raw.flatMap escapeByte

/-- What one `execute` finds around it. `now i` is the clock reading for shard `i`, `now 0`
the one of an operation on a single key; `store` is what `store_->save` returns, if there is
a store. -/
structure Env where
  now : Nat → Int
  store : Option SaveOutcome

/-- What a command calls of the database. A save begins with a snapshot of it. -/
def request (persistent : Bool) (command : Command) : Option Op :=
  match command.type with
  | .empty => none
  | .set => some (match command.expireSeconds with
    | some seconds => .setFor command.key command.value seconds
    | none => .set command.key command.value)
  | .get => some (.get command.key)
  | .del => some (.del command.key)
  | .exists => some (.existsKey command.key)
  | .keys => some .keys
  | .save => if persistent then some .snapshot else none

/-- The reply to a command that calls nothing; `none` is silence. -/
def immediate (command : Command) : Option Bytes :=
  match command.type with
  | .empty => none
  | _ => some (Protocol.error (bytes "ERR persistence is not configured"))

/-- The reply to what the database has answered; `saved` is what a save came to. -/
def respond (command : Command) (saved : SaveOutcome) (answer : Answer) : Bytes :=
  match command.type, answer with
  | .set, .outcome outcome =>
    if outcome = .rejected then
      Protocol.error (bytes "ERR value is larger than the configured max-memory")
    else Protocol.status (bytes "OK")
  | .get, .value none => Protocol.nil
  | .get, .value (some value) => Protocol.value (escapeForWire value)
  | .del, .flag b | .exists, .flag b => Protocol.integer (if b then 1 else 0)
  | .keys, .keys keys =>
    keys.foldl (fun response key => response ++ Ascii.lf :: Protocol.value (escapeForWire key))
      (Protocol.arrayHeader keys.length)
  | .save, _ =>
    if !saved.ok then Protocol.error (bytes "ERR " ++ saved.error)
    else Protocol.status (bytes "OK")
  | _, _ => Protocol.error (bytes "ERR internal error")

/-- The `switch` of `execute`. -/
def run (db : Database) (command : Command) (env : Env) : Database × Option Bytes :=
  match request env.store.isSome command with
  | none => (db, immediate command)
  | some op =>
    let r := db.step op env.now
    (r.1, some (respond command (env.store.getD {}) r.2))

/-- What a line gets whose call is answered by `answer`. -/
def responseTo (persistent : Bool) (requestLine : Bytes) (saved : SaveOutcome)
    (answer : Op → Answer) : Option Bytes :=
  match CommandParser.parse requestLine with
  | .error error => some (Protocol.error error)
  | .ok command =>
    match request persistent command with
    | none => immediate command
    | some op => some (respond command saved (answer op))

def execute (db : Database) (requestLine : Bytes) (env : Env) : Database × Option Bytes :=
  match CommandParser.parse requestLine with
  | .error error => (db, some (Protocol.error error))
  | .ok command => run db command env

theorem execute_response (db : Database) (requestLine : Bytes) (env : Env) :
    (execute db requestLine env).2 = responseTo env.store.isSome requestLine (env.store.getD {})
      fun op => (db.step op env.now).2 := by
  unfold execute responseTo run
  cases CommandParser.parse requestLine with
  | error error => rfl
  | ok command => cases hreq : request env.store.isSome command <;> simp only [hreq]

end CommandExecutor

end VCache
