import ImApp.RedisGate.Gate

/-!
How the server reads a command: keys, bounds and members by their place, then options,
of which the last occurrence counts. What the server knows about spellings and about the
ranges of identifiers and scores is a parameter.
-/

namespace ImApp.RedisGate

open JsonText (Text)
open Utf8 (Bytes)

structure Server where
  /-- An argument is taken for the option with this name, by the documentation when it
  spells the name in any case. -/
  reads : String → Bytes → Bool
  /-- The greatest number of elements between two bounds of a command, nothing where
  there is none. Bounds that cannot be read have no elements between them. -/
  capacity : Text → Bytes → Bytes → Option Nat

/-- The bytes of an ASCII name in any case. -/
def spells (name : String) (arg : Bytes) : Bool :=
  arg.all (·.toNat < 0x80) && (Utf8.chars arg).map Char.toUpper = name.toList

/-- What is in the database, as far as the size of an answer depends on it. -/
structure Content (server : Server) where
  lists : Bytes → List Bytes
  sortedSets : Bytes → Nat
  /-- The entries or members between two bounds of a command on a key. -/
  between : Text → Bytes → Bytes → Bytes → Nat
  within : ∀ command key low high most, server.capacity command low high = some most →
    between command key low high ≤ most
  log : Nat

/-- What the server answers with. -/
inductive Request where
  | rejected
  | fixed (elements : Nat)
  | range (sorted : Bool) (key : Bytes) (start stop : Int)
  | between (command : Text) (key low high : Bytes) (offset : Nat) (limit : Option Nat)
  | scan (count : Nat)
  | positions (key element : Bytes) (rank : Int) (count : Option Nat) (maxlen : Nat)
  | log (limit : Option Nat)

def integerOf (arg : Bytes) : Option Int := JsNumber.decimalInteger (Utf8.chars arg)

/-- The options in order with their values, nothing where the server stops with an
error. -/
def Server.options (server : Server) (table : List (String × Nat)) :
    Nat → List Bytes → Option (List (String × List Bytes))
  | _, [] => some []
  | 0, _ :: _ => none
  | fuel + 1, arg :: rest => match table.find? fun option => server.reads option.1 arg with
    | none => none
    | some (name, arity) => if rest.length < arity then none
      else (server.options table fuel (rest.drop arity)).map
        fun found => (name, rest.take arity) :: found

def Server.parseOptions (server : Server) (table : List (String × Nat)) (args : List Bytes) :
    Option (List (String × List Bytes)) := server.options table args.length args

/-- The values of the last occurrence. -/
def inForce (found : List (String × List Bytes)) (name : String) : Option (List Bytes) :=
  found.reverse.lookup name

def present (found : List (String × List Bytes)) (name : String) : Bool :=
  (inForce found name).isSome

/-- The values of each occurrence are integers that meet the condition. -/
def integersWhere (found : List (String × List Bytes)) (name : String) (ok : Int → Bool) : Bool :=
  found.all fun option => option.1 ≠ name || option.2.all fun arg => (integerOf arg).any ok

/-- The first, or the second, value of the option in force. -/
def forceValue (found : List (String × List Bytes)) (name : String) (i : Nat) : Option Int :=
  (inForce found name).bind fun values => values[i]?.bind integerOf

/-- The part of a range of scores that an option LIMIT selects. -/
def limited (command : Text) (key low high : Bytes) (found : List (String × List Bytes)) :
    Request :=
  if !integersWhere found "LIMIT" fun _ => true then .rejected
  else match forceValue found "LIMIT" 0, forceValue found "LIMIT" 1 with
    | some offset, some count =>
      if offset < 0 then .fixed 0
      else .between command key low high offset.toNat (if count < 0 then none else some count.toNat)
    | _, _ => .between command key low high 0 none

def indexRange (sorted : Bool) (key start stop : Bytes) : Request :=
  match integerOf start, integerOf stop with
  | some start, some stop => .range sorted key start stop
  | _, _ => .rejected

/-- LRANGE key start stop -/
def lrange : List Bytes → Request
  | [key, start, stop] => indexRange false key start stop
  | _ => .rejected

/-- SLOWLOG GET [count], SLOWLOG LEN -/
def slowlog : List Bytes → Request
  | [sub] => if spells "GET" sub then .log (some 10) else .fixed 1
  | [sub, count] => if !spells "GET" sub then .rejected else match integerOf count with
      | none => .rejected
      | some count => if count < -1 then .rejected
        else .log (if count = -1 then none else some count.toNat)
  | _ => .rejected

namespace Server

variable (server : Server)

/-- ZREVRANGE key start stop [WITHSCORES] -/
def zrevrange : List Bytes → Request
  | key :: start :: stop :: rest =>
    if (server.parseOptions [("WITHSCORES", 0)] rest).isNone then .rejected
    else indexRange true key start stop
  | _ => .rejected

/-- ZRANGE key start stop [BYSCORE | BYLEX] [REV] [LIMIT offset count] [WITHSCORES] -/
def zrange (command : Text) : List Bytes → Request
  | key :: start :: stop :: rest => match server.parseOptions
      [("WITHSCORES", 0), ("LIMIT", 2), ("REV", 0), ("BYLEX", 0), ("BYSCORE", 0)] rest with
    | none => .rejected
    | some found => if present found "BYSCORE" || present found "BYLEX" then
        limited command key start stop found else if present found "LIMIT" then .rejected
      else indexRange true key start stop
  | _ => .rejected

/-- ZRANGEBYSCORE key min max [WITHSCORES] [LIMIT offset count] -/
def zrangebyscore (command : Text) : List Bytes → Request
  | key :: low :: high :: rest =>
    match server.parseOptions [("WITHSCORES", 0), ("LIMIT", 2)] rest with
    | none => .rejected
    | some found => limited command key low high found
  | _ => .rejected

/-- XRANGE key start end [COUNT count] -/
def xrange (command : Text) : List Bytes → Request
  | key :: low :: high :: rest => match server.parseOptions [("COUNT", 1)] rest with
    | none => .rejected
    | some found => if !integersWhere found "COUNT" fun _ => true then .rejected
      else .between command key low high 0 ((forceValue found "COUNT" 0).map Int.toNat)
  | _ => .rejected

/-- A cursor and the options of a scan. -/
def scanOptions (table : List (String × Nat)) (cursor : Bytes) (rest : List Bytes) : Request :=
  if cursor = [] || !(Utf8.chars cursor).all JsNumber.isDigit then .rejected
  else match server.parseOptions (("MATCH", 1) :: ("COUNT", 1) :: table) rest with
    | none => .rejected
    | some found =>
      if !integersWhere found "COUNT" (1 ≤ ·) then .rejected
      else .scan (((forceValue found "COUNT" 0).map Int.toNat).getD 10)

/-- SCAN cursor [MATCH pattern] [COUNT count] [TYPE type] -/
def scan : List Bytes → Request
  | cursor :: rest => server.scanOptions [("TYPE", 1)] cursor rest
  | _ => .rejected

/-- HSCAN key cursor [MATCH pattern] [COUNT count] [NOVALUES], without the last for
the others -/
def keyScan (table : List (String × Nat)) : List Bytes → Request
  | _ :: cursor :: rest => server.scanOptions table cursor rest
  | _ => .rejected

/-- LPOS key element [RANK rank] [COUNT num-matches] [MAXLEN len] -/
def lpos : List Bytes → Request
  | key :: element :: rest =>
    match server.parseOptions [("RANK", 1), ("COUNT", 1), ("MAXLEN", 1)] rest with
    | none => .rejected
    | some found =>
      if !(integersWhere found "RANK" (· ≠ 0) && integersWhere found "COUNT" (0 ≤ ·) &&
          integersWhere found "MAXLEN" (0 ≤ ·)) then .rejected
      else .positions key element ((forceValue found "RANK" 0).getD 1)
        ((forceValue found "COUNT" 0).map Int.toNat)
        (((forceValue found "MAXLEN" 0).map Int.toNat).getD 0)
  | _ => .rejected

/-- The request of a command by its documentation. The others of the reads answer with a
value, a number or a report. -/
def request (name : Text) (args : List Bytes) : Request :=
  if named ["LRANGE"] name then lrange args
  else if named ["ZREVRANGE"] name then server.zrevrange args
  else if named ["ZRANGE"] name then server.zrange name args
  else if named ["ZRANGEBYSCORE", "ZREVRANGEBYSCORE"] name then server.zrangebyscore name args
  else if named ["XRANGE", "XREVRANGE"] name then server.xrange name args
  else if named ["SCAN"] name then server.scan args
  else if named ["HSCAN"] name then server.keyScan [("NOVALUES", 0)] args
  else if named ["SSCAN", "ZSCAN"] name then server.keyScan [] args
  else if named ["LPOS"] name then server.lpos args
  else if named ["SLOWLOG"] name then slowlog args
  else if named ["MGET"] name then .fixed args.length
  else if named ["HMGET", "SMISMEMBER", "ZMSCORE"] name then .fixed (args.length - 1)
  else if named ["TIME"] name then .fixed 2
  else .fixed 1

end Server

/-- The elements from one index to another, counted from the end where negative. -/
def rangeCount (length : Nat) (start stop : Int) : Nat :=
  let start := if start < 0 then max (length + start) 0 else start
  let stop := if stop < 0 then length + stop else stop
  (min stop (length - 1) - start + 1).toNat

def limit (most : Option Nat) (n : Nat) : Nat := most.elim n (min n)

/-- The positions of an element in a list, from its head or from its end, without those
before the wanted one. -/
def positionCount (items : List Bytes) (element : Bytes) (rank : Int) (maxlen : Nat) : Nat :=
  let compared := if rank < 0 then items.reverse else items
  let looked := if maxlen = 0 then compared else compared.take maxlen
  looked.count element - (rank.natAbs - 1)

/-- The number of elements in the answer; a scan counts by the hint. -/
def Content.elements {server : Server} (content : Content server) : Request → Nat
  | .rejected => 0
  | .fixed elements => elements
  | .range sorted key start stop =>
    rangeCount (if sorted then content.sortedSets key else (content.lists key).length) start stop
  | .between command key low high offset most =>
    limit most (content.between command key low high - offset)
  | .scan count => count
  | .positions key element rank count maxlen => match count with
    | none => min 1 (positionCount (content.lists key) element rank maxlen)
    | some 0 => positionCount (content.lists key) element rank maxlen
    | some count => min count (positionCount (content.lists key) element rank maxlen)
  | .log most => limit most content.log

/-- The commands that the documentation flags as writes. -/
def documentedWrites : List String :=
  ["APPEND", "BITFIELD", "BITOP", "BLMOVE", "BLMPOP", "BLPOP", "BRPOP", "BRPOPLPUSH", "BZMPOP",
    "BZPOPMAX", "BZPOPMIN", "COPY", "DECR", "DECRBY", "DEL", "EXPIRE", "EXPIREAT", "FLUSHALL",
    "FLUSHDB", "FUNCTION", "GEOADD", "GEORADIUS", "GEORADIUSBYMEMBER", "GEOSEARCHSTORE", "GETDEL",
    "GETEX", "GETSET", "HDEL", "HEXPIRE", "HEXPIREAT", "HINCRBY", "HINCRBYFLOAT", "HMSET",
    "HPERSIST", "HPEXPIRE", "HPEXPIREAT", "HSET", "HSETNX", "INCR", "INCRBY", "INCRBYFLOAT",
    "LINSERT", "LMOVE", "LMPOP", "LPOP", "LPUSH", "LPUSHX", "LREM", "LSET", "LTRIM", "MIGRATE",
    "MOVE", "MSET", "MSETNX", "PERSIST", "PEXPIRE", "PEXPIREAT", "PFADD", "PFMERGE", "PSETEX",
    "RENAME", "RENAMENX", "RESTORE", "RPOP", "RPOPLPUSH", "RPUSH", "RPUSHX", "SADD", "SDIFFSTORE",
    "SET", "SETEX", "SETNX", "SETRANGE", "SINTERSTORE", "SMOVE", "SORT", "SPOP", "SREM",
    "SUNIONSTORE", "SWAPDB", "UNLINK", "XACK", "XADD", "XAUTOCLAIM", "XCLAIM", "XDEL", "XGROUP",
    "XREADGROUP", "XSETID", "XTRIM", "ZADD", "ZDIFFSTORE", "ZINCRBY", "ZINTERSTORE", "ZMPOP",
    "ZPOPMAX", "ZPOPMIN", "ZRANGESTORE", "ZREM", "ZREMRANGEBYLEX", "ZREMRANGEBYRANK",
    "ZREMRANGEBYSCORE", "ZUNIONSTORE"]

/-- A write, or a subcommand that changes the server. -/
def writes (name : Text) (args : List Bytes) : Bool :=
  named documentedWrites name || named ["SLOWLOG"] name && args.head?.any (spells "RESET") ||
    named ["MEMORY"] name && args.head?.any (spells "PURGE")

end ImApp.RedisGate
