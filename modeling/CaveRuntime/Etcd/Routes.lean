import CaveRuntime.Etcd.Auth

/-!
# The etcd-compatible store: the handlers of reads and deletions

Model of `kv_range` and `kv_delete_range` in `crates/compute/cave-etcd/src/routes.rs`, lines 143-205,
219-244 and 327-390. The `Authorization` header is given as the string that `to_str` reads, if it reads
one. With a bridge, a deletion is proposed to Raft and made by the daemon that applies committed entries
(`raft_apply.rs`, lines 207-215 and 387-409), after the entries of others that are committed before it.
-/

namespace Etcd
open Utf8

/-- The `base64` crate. -/
structure Base64 where
  encode : Bytes → Bytes
  decode : Bytes → Option Bytes

namespace Base64

/-- Rust `b64::decode`: a string that is not base64 stands for itself. -/
def decodeOr (b64 : Base64) (s : Str) : Bytes := (b64.decode s.asBytes).getD s.asBytes

/-- A string of a request. -/
def text (b64 : Base64) (s : Str) : Str := .lossy (b64.decodeOr s)

end Base64

def decodeRangeRequest (b64 : Base64) (req : RangeRequest) : RangeRequest :=
  { req with key := b64.text req.key, rangeEnd := req.rangeEnd.map b64.text }

def decodeDeleteRequest (b64 : Base64) (req : DeleteRangeRequest) : DeleteRangeRequest :=
  { req with key := b64.text req.key, rangeEnd := req.rangeEnd.map b64.text }

def encodeKv (b64 : Base64) (kv : KeyValue) : KeyValue :=
  { kv with key := b64.encode kv.key, value := b64.encode kv.value }

/-- Rust `trim_start_matches("Bearer ")`; the number of characters is fuel enough. -/
def trimBearer : ℕ → List Char → List Char
  | 0, cs => cs
  | fuel + 1, cs =>
    if "Bearer ".toList.isPrefixOf cs then trimBearer fuel (cs.drop "Bearer ".length) else cs

def extractToken (authorization : Option String) : Option String :=
  authorization.map fun s => String.ofList (trimBearer s.length s.toList)

inductive StatusCode where
  | badRequest | unauthorized | internalServerError | serviceUnavailable | gatewayTimeout
  deriving DecidableEq

/-- A response that is not a success. -/
structure Refusal where
  status : StatusCode
  body : String
  location : Option String := none
  deriving DecidableEq

inductive RaftBridgeError where
  | notLeader (leaderUrl : Option String)
  | timeout
  | internal (message : String)

/-- A string that may be the value of a header. -/
def isHeaderValue (s : String) : Bool :=
  s.toList.all fun c => (32 ≤ c.toNat && c.toNat < 127) || c.toNat == 9

/-- The response to a failed proposal. -/
def RaftBridgeError.refusal : RaftBridgeError → Refusal
  | .notLeader leaderUrl =>
    { status := .serviceUnavailable
      body := "not leader; leader_url=" ++ leaderUrl.getD "unknown"
      location := leaderUrl.filter isHeaderValue }
  | .timeout => { status := .gatewayTimeout, body := "timed out waiting for raft commit+apply" }
  | .internal message => { status := .internalServerError, body := message }

/-- A Raft bridge at the time of a proposal: what the entries before the proposed one make of the store,
and what the proposal comes to. -/
structure RaftBridge where
  others : KvStore → KvStore
  result : Except RaftBridgeError Unit

/-- The store that a deletion is applied to. -/
def deleteBase (bridge : Option RaftBridge) (s : KvStore) : KvStore :=
  match bridge with
  | none => s
  | some b => b.others s

namespace AuthStore

/-- Rust `kv_range`. No error of `range` is a `KeyNotFound`, which would have its own status. -/
def kvRange (b64 : Base64) (s : AuthStore) (authorization : Option String) (req : RangeRequest) :
    Except Refusal RangeResponse :=
  match s.checkAuthToken (extractToken authorization) (decodeRangeRequest b64 req).key.asBytes .read with
  | .error e => .error { status := .unauthorized, body := e.display }
  | .ok () =>
    match s.kv.range (decodeRangeRequest b64 req) with
    | .error e => .error { status := .badRequest, body := e.display }
    | .ok resp => .ok { resp with kvs := resp.kvs.map (encodeKv b64) }

/-- A deletion that has been authorised. -/
def deleteNow (b64 : Base64) (s : AuthStore) (bridge : Option RaftBridge) (order : Order Bytes)
    (req : DeleteRangeRequest) : Except Refusal DeleteRangeResponse × AuthStore :=
  match bridge with
  | none =>
    let (resp, kv) := s.kv.deleteRange order req
    (.ok { resp with prevKvs := resp.prevKvs.map (encodeKv b64) }, { s with kv := kv })
  | some b =>
    match b.result with
    | .error e => (.error e.refusal, { s with kv := b.others s.kv })
    | .ok () =>
      let (_, kv) := (b.others s.kv).deleteRange order { req with prevKv := false }
      (.ok { header := { clusterId := 0, memberId := 0, revision := 0, raftTerm := 0 }
             deleted := 0
             prevKvs := [] }, { s with kv := kv })

def kvDeleteRange (b64 : Base64) (s : AuthStore) (bridge : Option RaftBridge) (order : Order Bytes)
    (authorization : Option String) (req : DeleteRangeRequest) :
    Except Refusal DeleteRangeResponse × AuthStore :=
  let req := decodeDeleteRequest b64 req
  match s.checkAuthToken (extractToken authorization) req.key.asBytes .write with
  | .error e => (.error { status := .unauthorized, body := e.display }, s)
  | .ok () => s.deleteNow b64 bridge order req

end AuthStore

end Etcd
