import ImApp.Library.JsNumber

/-!
The gate for reads of Redis: which commands are reads, and the bounds that their
arguments must state. Arguments are texts or bytes in base64; the gate looks at the
texts that the bytes decode to.
-/

namespace ImApp.RedisGate

open JsonText (Text)
open Utf8 (Bytes)

/-- Upper case as far as it decides a comparison with ASCII text. -/
def upperChar (c : Char) : Text :=
  if c = 'ß' then "SS".toList
  else if c = 'ı' then ['I']
  else if c = 'ſ' then ['S']
  else if c = 'ﬀ' then "FF".toList
  else if c = 'ﬁ' then "FI".toList
  else if c = 'ﬂ' then "FL".toList
  else if c = 'ﬃ' then "FFI".toList
  else if c = 'ﬄ' then "FFL".toList
  else if c = 'ﬅ' || c = 'ﬆ' then "ST".toList
  else [c.toUpper]

def toUpperCase (text : Text) : Text := text.flatMap upperChar

def named (names : List String) (name : Text) : Bool := names.any fun n => n.toList = name

inductive RedisCommandAccess where
  | read
  | write
  | deny
  deriving DecidableEq

def readCommands : List String :=
  ["DBSIZE", "EXISTS", "GET", "HEXISTS", "HGET", "HLEN", "HMGET", "HSCAN",
    "INFO", "LLEN", "LPOS", "LRANGE", "MEMORY", "MGET", "OBJECT", "PING", "PTTL", "SCAN",
    "SCARD", "SISMEMBER", "SLOWLOG", "SMISMEMBER", "SSCAN", "STRLEN", "TIME", "TTL", "TYPE",
    "XLEN", "XRANGE", "XREVRANGE", "ZCARD", "ZMSCORE", "ZRANGE", "ZRANGEBYSCORE", "ZRANK",
    "ZREVRANGE", "ZREVRANGEBYSCORE", "ZREVRANK", "ZSCAN", "ZSCORE"]

def writeCommands : List String :=
  ["COPY", "DEL", "EXPIRE", "EXPIREAT", "HDEL", "HINCRBY", "HINCRBYFLOAT", "HSET", "LINSERT",
    "LPOP", "LPUSH", "LREM", "LSET", "MSET", "PERSIST", "PEXPIRE", "PEXPIREAT", "RENAME",
    "RENAMENX", "RPOP", "RPUSH", "SADD", "SET", "SREM", "UNLINK", "XADD", "XDEL", "ZADD",
    "ZINCRBY", "ZREM"]

def readOnlySubcommands (name : Text) : Option (List String) :=
  if named ["MEMORY"] name then some ["USAGE", "STATS", "DOCTOR", "MALLOC-STATS"]
  else if named ["OBJECT"] name then some ["ENCODING", "FREQ", "IDLETIME", "REFCOUNT"]
  else if named ["SLOWLOG"] name then some ["GET", "LEN"]
  else none

def redisCommandAccess (command : Text) (args : List Text) : RedisCommandAccess :=
  let name := toUpperCase (JsNumber.trim command)
  if named readCommands name then
    match readOnlySubcommands name with
    | none => .read
    | some subcommands =>
      if named subcommands (toUpperCase (args.head?.getD [])) then .read else .deny
  else if named writeCommands name then .write
  else .deny

/-- The text of an argument in upper case. -/
def upperText (arg : Bytes) : Text := toUpperCase (Utf8.decode arg)

def integerAt (args : List Bytes) (i : Nat) : Option ℚ :=
  (args[i]?).bind fun arg => JsNumber.integer (Utf8.decode arg)

/-- An integer from 1 to 1000. -/
def isBound (n : Option ℚ) : Bool := n.any fun n => 1 ≤ n && n ≤ 1000

/-- The place of the first argument with this text. -/
def optionIndex (args : List Bytes) (option : String) : Option Nat :=
  args.findIdx? fun arg => upperText arg = option.toList

/-- `stop - start + 1 > 1000` -/
def exceeds (start stop : ℚ) : Bool :=
  match Double.round (stop - start) with
  | none => true
  | some distance =>
    match Double.round (distance + 1) with
    | none => true
    | some count => 1000 < count

def validateRedisBoundedRead (command : Text) (args : List Bytes) : Option String :=
  let name := toUpperCase command
  let shown := String.ofList name
  if named ["ZRANGE"] name &&
      args.any fun arg => named ["BYSCORE", "BYLEX", "LIMIT"] (upperText arg) then
    some "ZRANGE 只允许按索引读取；按分数读取请使用带 LIMIT 的 ZRANGEBYSCORE"
  else if named ["LRANGE", "ZRANGE", "ZREVRANGE"] name &&
      !(match integerAt args 1, integerAt args 2 with
        | some start, some stop => start ≤ stop && !exceeds start stop
        | _, _ => false) then
    some s!"{shown} 单次最多读取 1000 个成员"
  else if named ["XRANGE", "XREVRANGE"] name &&
      !(optionIndex args "COUNT").any fun i => isBound (integerAt args (i + 1)) then
    some s!"{shown} 必须指定 1–1000 的 COUNT"
  else if named ["MGET", "EXISTS"] name && 100 < args.length then
    some s!"{shown} 单次最多处理 100 个键"
  else if named ["HMGET", "SMISMEMBER", "ZMSCORE"] name && 101 < args.length then
    some s!"{shown} 单次最多处理 100 个成员"
  else if named ["DEL", "UNLINK"] name && 100 < args.length then
    some s!"{shown} 单次最多处理 100 个键"
  else if named ["MSET"] name && (args.length % 2 ≠ 0 || 200 < args.length) then
    some "MSET 单次最多写入 100 个键值对，且参数必须成对"
  else if named ["HSCAN", "SSCAN", "ZSCAN", "SCAN"] name &&
      (optionIndex args "COUNT").any fun i => !isBound (integerAt args (i + 1)) then
    some s!"{shown} 的 COUNT 必须在 1–1000 之间"
  else if named ["ZRANGEBYSCORE", "ZREVRANGEBYSCORE"] name &&
      !(optionIndex args "LIMIT").any fun i => isBound (integerAt args (i + 2)) then
    some s!"{shown} 必须指定 LIMIT offset count，且 count 不超过 1000"
  else if named ["LPOP", "RPOP"] name && 1 < args.length && !isBound (integerAt args 1) then
    some s!"{shown} 单次最多处理 1000 个元素"
  else if named ["SLOWLOG"] name && args.head?.any (fun arg => upperText arg = "GET".toList) &&
      !isBound (integerAt args 1) then
    some "SLOWLOG GET 必须指定 1–1000 的数量"
  else if named ["MEMORY"] name && args.head?.any (fun arg => upperText arg = "USAGE".toList) &&
      (optionIndex args "SAMPLES").any fun i => !isBound (integerAt args (i + 1)) then
    some "MEMORY USAGE 的 SAMPLES 必须在 1–1000 之间"
  else none

inductive Arg where
  | text (value : Text)
  | base64 (value : Text)

/-- What a caller may pass for an argument. -/
inductive ArgValue where
  | text (value : Text)
  | base64 (value : Text)
  | other

/-- The length in UTF-16 units. -/
def units (text : Text) : Nat := text.length + text.countP fun c => 0x10000 ≤ c.toNat

def checkedArg : ArgValue → Option Arg
  | .text value => if (Utf8.encode value).length ≤ 256 * 1024 then some (.text value) else none
  | .base64 value => if units value ≤ 512 * 1024 then some (.base64 value) else none
  | .other => none

variable (fromBase64 : Text → Bytes)

/-- The bytes that the server receives. -/
def Arg.bytes : Arg → Bytes
  | .text value => Utf8.encode value
  | .base64 value => fromBase64 value

/-- The text that the policy looks at. -/
def Arg.policyText : Arg → Text
  | .text value => value
  | .base64 value => Utf8.decode (fromBase64 value)

/-- `none` stands for a value that is no text, or no array. -/
def assertMcpReadOnlyRedisCommand (commandValue : Option Text)
    (argsValue : Option (List ArgValue)) : Except String (Text × List Arg) :=
  let command := match commandValue with
    | some value => toUpperCase (JsNumber.trim value)
    | none => []
  if command = [] || 64 < units command then .error "Redis 命令名称无效"
  else match argsValue with
    | none => .error "Redis 命令参数无效"
    | some values =>
      if 256 < values.length then .error "Redis 命令参数无效"
      else match values.mapM checkedArg with
        | none => .error "Redis 命令参数无效或过大"
        | some args =>
          let policyArgs := args.map (Arg.policyText fromBase64)
          if redisCommandAccess command policyArgs ≠ .read then
            .error s!"MCP 只读工具不允许执行 Redis 写命令 {String.ofList command}"
          else match validateRedisBoundedRead command (policyArgs.map Utf8.encode) with
            | some error => .error error
            | none => .ok (command, args)

end ImApp.RedisGate
