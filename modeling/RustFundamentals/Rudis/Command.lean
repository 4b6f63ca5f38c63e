import RustFundamentals.Rudis.Persistence
import RustFundamentals.Rudis.Resp

/-!
# rudis: commands

`command.rs`: a request becomes a command, and a command runs against the store. `respond` is
the reply to a request, which is an error reply when the request is no command.
-/

namespace RustFundamentals.Rudis

open Foundation Foundation.Fs

/-- `Command`. -/
inductive Command
  | ping (message : Option Bytes)
  | echo (message : Bytes)
  | get (key : Bytes)
  | set (key value : Bytes) (expireAt : Option Nat)
  | del (keys : List Bytes)
  | exists (keys : List Bytes)
  | incr (key : Bytes)
  | expire (key : Bytes) (seconds : Nat)
  | ttl (key : Bytes)
  | dbSize
  | save
  | command
  deriving DecidableEq, Repr

/-- The loop of `args_of`. -/
def bulkArgs : List Resp → Except (Stop Error) (List Bytes)
  | [] => .ok []
  | .bulk bytes :: items => do
    let args ← bulkArgs items
    return bytes :: args
  | _ :: _ => protocolError (Str.lit "command arguments must be bulk strings")

/-- `args_of`: the name of the command and its arguments. -/
def argsOf (resp : Resp) : Except (Stop Error) (Bytes × List Bytes) := do
  let items ← match resp with
    | .array items => pure items
    | _ => protocolError (Str.lit "expected an array of bulk strings")
  match ← bulkArgs items with
  | [] => protocolError (Str.lit "empty command")
  | name :: args => return (name, args)

namespace Command

/-- The argument of a command that takes one. -/
def oneArg (args : List Bytes) (complaint : Str) : Except (Stop Error) Bytes :=
  match args with
  | [arg] => .ok arg
  | _ => protocolError complaint

/-- The keys of a command that takes one or more. -/
def someKeys (args : List Bytes) (complaint : Str) : Except (Stop Error) (List Bytes) :=
  match args with
  | [] => protocolError complaint
  | _ => .ok args

/-- An argument as a `u64`. -/
def amount (arg : Bytes) (complaint : Str) : Except (Stop Error) Nat :=
  match (Str.fromUtf8 arg).bind fun text => parseUnsigned 64 text.bytes with
  | some n => .ok n
  | none => protocolError complaint

/-- The `SET` arm: the unit is looked at after the amount has been read. -/
def parseSet (ov : Overflow) (args : List Bytes) : Io Core Error Command :=
  match args with
  | [key, value] => pure (.set key value none)
  | [key, value, unit, arg] => do
    let amount ← ofExcept (amount arg (Str.lit "invalid SET expiry amount"))
    let unit := (Str.fromUtf8Lossy unit).toAsciiUppercase
    let deadline ←
      if unit = Str.lit "EX" then do orPanic (Store.deadlineAfter ov (← nowMs) amount 1000)
      else if unit = Str.lit "PX" then do orPanic (ov.fit 64 ((← nowMs) + amount))
      else throw (.err (.protocol (Str.lit "SET expiry unit must be EX or PX")))
    return .set key value (some deadline)
  | _ => throw (.err (.protocol (Str.lit "SET requires key, value, and optional EX/PX")))

/-- The `match` of `Command::parse` on the name, the arguments after the name given. -/
def parseNamed (ov : Overflow) (name : Str) (args : List Bytes) : Io Core Error Command :=
  if name = Str.lit "PING" then pure (.ping args.head?)
  else if name = Str.lit "ECHO" then
    ofExcept (echo <$> oneArg args (Str.lit "ECHO requires one argument"))
  else if name = Str.lit "GET" then
    ofExcept (get <$> oneArg args (Str.lit "GET requires one argument"))
  else if name = Str.lit "INCR" then
    ofExcept (incr <$> oneArg args (Str.lit "INCR requires one argument"))
  else if name = Str.lit "TTL" then
    ofExcept (ttl <$> oneArg args (Str.lit "TTL requires one argument"))
  else if name = Str.lit "DEL" then
    ofExcept (del <$> someKeys args (Str.lit "DEL requires at least one key"))
  else if name = Str.lit "EXISTS" then
    ofExcept («exists» <$> someKeys args (Str.lit "EXISTS requires at least one key"))
  else if name = Str.lit "EXPIRE" then
    match args with
    | [key, seconds] => ofExcept (expire key <$> amount seconds (Str.lit "invalid expire seconds"))
    | _ => throw (.err (.protocol (Str.lit "EXPIRE requires key and seconds")))
  else if name = Str.lit "SET" then parseSet ov args
  else if name = Str.lit "DBSIZE" then pure .dbSize
  else if name = Str.lit "SAVE" then pure .save
  else if name = Str.lit "COMMAND" then pure .command
  else throw (.err (.protocol (Str.lit "unknown command '" ++ name ++ Str.lit "'")))

/-- `Command::parse`. -/
def parse (ov : Overflow) (resp : Resp) : Io Core Error Command := do
  let (name, args) ← ofExcept (argsOf resp)
  parseNamed ov (Str.fromUtf8Lossy name).toAsciiUppercase args

/-- How many of the keys an operation answers true for, taken one after the other. -/
def countKeys (op : Bytes → Nat → Store → Bool × Store) : List Bytes → Io Core Empty Nat
  | [] => pure 0
  | key :: keys => do
    let hit ← timed fun now s => some (op key now s)
    let rest ← countKeys op keys
    return hit.toNat + rest

/-! The replies that do not depend on the store. -/

def pong : Resp := .simple (Str.lit "PONG")

def okReply : Resp := .simple (Str.lit "OK")

def notAnInteger : Resp := .error (Str.lit "ERR value is not an integer or out of range")

/-- `Command::execute`: it returns no error. -/
def execute (ov : Overflow) : Command → Io Core Empty Resp
  | ping none => pure (.simple (Str.lit "PONG"))
  | ping (some message) => pure (.bulk message)
  | echo message => pure (.bulk message)
  | get key => do
    match ← timed fun now s => some (s.get key now) with
    | some value => return .bulk value
    | none => return .null
  | set key value expireAt => do
    modify fun core => { core with store := core.store.set key value expireAt }
    return .simple (Str.lit "OK")
  | del keys => do
    return .integer (castI64 (← countKeys Store.del keys))
  | «exists» keys => do
    return .integer (castI64 (← countKeys Store.exists keys))
  | incr key => do
    match ← timed (Store.incr ov key) with
    | .ok next => return .integer next
    | .error () => return .error (Str.lit "ERR value is not an integer or out of range")
  | expire key seconds => do
    return .integer (← timed (Store.expire ov key seconds)).toNat
  | ttl key => do
    return .integer (← timed (Store.ttl ov key))
  | dbSize => do
    return .integer (castI64 (← timed fun now s => some (s.len now, s)))
  | save => do
    match (← getThe Core).store.snapshotPath with
    | some path =>
      match ← attempt (Persistence.save path) with
      | .ok () => return .simple (Str.lit "OK")
      | .error e => return .error (Str.lit "ERR save failed: " ++ e.display)
    | none => return .error (Str.lit "ERR persistence is not configured")
  | command => pure (.array [])

end Command

/-- The reply to one request, as `Connection::process` makes it. -/
def respond (ov : Overflow) (request : Resp) : Io Core Empty Resp := do
  match ← attempt (Command.parse ov request) with
  | .ok c => c.execute ov
  | .error e => return .error (Str.lit "ERR " ++ e.display)

end RustFundamentals.Rudis
