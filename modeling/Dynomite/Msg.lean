import Dynomite.Mbuf

/-! # Message objects and the message pool

`struct msg` with the fields the functions of `dyn_message.c` read or write,
the file's statics (`msg_id`, `frag_id`, `nfree_msgq`, `free_msgq`,
`alloc_msg_count`) and the message objects themselves, addressed by `Nat`.
A message's `pos` is kept as an offset into its tail mbuf, where the parsers
leave it.  Fields that only the parsers or other files use (`state`, `token`,
`narg*`, `rlen`, the timeout node, the coalesce flags) are left out.

The pool operations follow the source.  `_msg_get` reuses the head of the
free queue or raises `alloc_msg_count` and then asks `dn_alloc` for a new
object (`allocOk` is its outcome); either way it ends at `done:`
(`msgInitAt`), which gives the object the next id and every field as
`Msg.fresh` has it.  `msg_get` then installs the owner, the direction, the
dialect's parser and callbacks; `msg_put` releases the envelope and the mbufs
and pushes the object back; `msg_init` resets the statics but not
`alloc_msg_count`; `msg_get_error` builds the error reply, with the C library's
`strerror`; `msg_clone` copies each source mbuf's `[pos, last)` into a fresh
mbuf, `mbufOk j` being the outcome of the `j`-th `mbuf_get`.  `msgLength` is
`msg_length`, `last - start` summed over the chain as a `uint32_t`. -/

set_option autoImplicit false

namespace Dynomite

/-! ## Machine words -/

theorem u32_toNat_add (a b : UInt32) : (a + b).toNat = (a.toNat + b.toNat) % 2 ^ 32 := rfl
theorem u32_le_iff (a b : UInt32) : a ≤ b ↔ a.toNat ≤ b.toNat := Iff.rfl
theorem u32_lt_iff (a b : UInt32) : a < b ↔ a.toNat < b.toNat := Iff.rfl
theorem u32_toNat_lt (a : UInt32) : a.toNat < 2 ^ 32 := a.toNat_lt_size
@[simp] theorem u32_toNat_one : (1 : UInt32).toNat = 1 := rfl
theorem u32_toNat_sub (a b : UInt32) (h : b.toNat ≤ a.toNat) : (a - b).toNat = a.toNat - b.toNat :=
  UInt32.toNat_sub_of_le a b h
theorem u32_eq_iff (a b : UInt32) : a = b ↔ a.toNat = b.toNat :=
  ⟨congrArg _, UInt32.toNat.inj⟩
theorem nat_toUInt32_toNat (n : Nat) : n.toUInt32.toNat = n % 2 ^ 32 := rfl
theorem u32_toNat_succ (a : UInt32) (h : a.toNat + 1 < 2 ^ 32) : (a + 1).toNat = a.toNat + 1 := by
  show (a.toNat + 1) % 2 ^ 32 = _
  omega
theorem u64_lt_iff (a b : UInt64) : a < b ↔ a.toNat < b.toNat := Iff.rfl
theorem u64_le_iff (a b : UInt64) : a ≤ b ↔ a.toNat ≤ b.toNat := Iff.rfl
@[simp] theorem u64_toNat_one : (1 : UInt64).toNat = 1 := rfl
theorem u64_eq_iff (a b : UInt64) : a = b ↔ a.toNat = b.toNat :=
  ⟨congrArg _, UInt64.toNat.inj⟩
theorem u64_toNat_succ (a : UInt64) (h : a.toNat + 1 < 2 ^ 64) : (a + 1).toNat = a.toNat + 1 := by
  show (a.toNat + 1) % 2 ^ 64 = _
  omega
theorem u64_toNat_succ_le (a : UInt64) : (a + 1).toNat ≤ a.toNat + 1 := Nat.mod_le _ _
theorem u64_le_refl (a : UInt64) : a ≤ a := (u64_le_iff _ _).2 (Nat.le_refl _)
theorem u64_le_of_lt {a b : UInt64} (h : a < b) : a ≤ b :=
  (u64_le_iff _ _).2 (Nat.le_of_lt ((u64_lt_iff _ _).1 h))
theorem u64_not_le_of_lt {a b : UInt64} (h : a < b) : ¬ b ≤ a :=
  fun h' => Nat.not_le_of_lt ((u64_lt_iff _ _).1 h) ((u64_le_iff _ _).1 h')
theorem u64_lt_irrefl (a : UInt64) : ¬ a < a := fun h => Nat.lt_irrefl _ ((u64_lt_iff _ _).1 h)
theorem u64_le_antisymm {a b : UInt64} (h₁ : a ≤ b) (h₂ : b ≤ a) : a = b := by
  rw [u64_le_iff] at h₁ h₂
  rw [u64_eq_iff]
  omega

inductive RStatus
  | ok
  | error
  | eagain
  | enomem
deriving DecidableEq, Repr

inductive MsgParseResult
  | ok
  | error
  | repair
  | fragment
  | again
deriving DecidableEq, Repr

inductive Parser
  | redisParseReq
  | redisParseRsp
  | memcacheParseReq
  | memcacheParseRsp
  | dynParseReq
  | dynParseRsp
deriving DecidableEq, Repr

inductive Dialect
  | redis
  | memcache
deriving DecidableEq, Repr

inductive MsgType
  | unknown
  | rspMcServerError
  | other (code : Nat)
deriving DecidableEq, Repr

/-- The internal-protocol envelope: `bit_field = 1` marks a ciphertext payload
of which `plen` bytes are still to come. -/
structure Dmsg where
  bitField : UInt8
  plen : UInt32
deriving DecidableEq, Repr

structure Msg where
  id : UInt64
  owner : Option Nat
  mhdr : List Mbuf
  mlen : UInt32
  pos : Nat
  parser : Option Parser
  result : MsgParseResult
  preSplitcopy : Option Dialect
  postSplitcopy : Option Dialect
  preCoalesce : Option Dialect
  postCoalesce : Option Dialect
  type : MsgType
  keyStart : Option Nat
  keyEnd : Option Nat
  vlen : UInt32
  fragOwner : Option Nat
  nfrag : UInt32
  fragId : UInt64
  request : Bool
  quit : Bool
  noreply : Bool
  firstFragment : Bool
  lastFragment : Bool
  redis : Bool
  isRead : Bool
  dmsg : Option Dmsg
deriving DecidableEq, Repr

def Msg.fresh (id : UInt64) : Msg where
  id := id
  owner := none
  mhdr := []
  mlen := 0
  pos := 0
  parser := none
  result := .ok
  preSplitcopy := none
  postSplitcopy := none
  preCoalesce := none
  postCoalesce := none
  type := .unknown
  keyStart := none
  keyEnd := none
  vlen := 0
  fragOwner := none
  nfrag := 0
  fragId := 0
  request := false
  quit := false
  noreply := false
  firstFragment := false
  lastFragment := false
  redis := false
  isRead := true
  dmsg := none

/-- The connection fields this file reads: its descriptor (a message's
`owner`), its mode and dialect, `err`, `recv_ready`, and the current inbound
message that `recv_next` hands out. -/
structure Conn where
  sd : Nat
  dynMode : Bool
  redis : Bool
  err : Nat
  recvReady : Bool
  rmsg : Option Nat
deriving DecidableEq, Repr

/-- The statics of the file and the message objects obtained from `dn_alloc`:
addresses `0 .. nmsgs - 1`. -/
structure Core where
  msgId : UInt64
  fragId : UInt64
  nfreeMsgq : UInt32
  freeMsgq : List Nat
  allocMsgCount : UInt32
  msgs : Nat → Msg
  nmsgs : Nat

namespace Core

def set (c : Core) (i : Nat) (m : Msg) : Core := { c with msgs := Function.update c.msgs i m }

@[simp] theorem set_msgs_self (c : Core) (i : Nat) (m : Msg) : (c.set i m).msgs i = m := by
  simp [set]

@[simp] theorem set_msgs_ne (c : Core) {i j : Nat} (m : Msg) (h : j ≠ i) :
    (c.set i m).msgs j = c.msgs j := by simp [set, h]

@[simp] theorem set_nmsgs (c : Core) (i : Nat) (m : Msg) : (c.set i m).nmsgs = c.nmsgs := rfl
@[simp] theorem set_freeMsgq (c : Core) (i : Nat) (m : Msg) : (c.set i m).freeMsgq = c.freeMsgq := rfl
@[simp] theorem set_nfreeMsgq (c : Core) (i : Nat) (m : Msg) : (c.set i m).nfreeMsgq = c.nfreeMsgq := rfl
@[simp] theorem set_allocMsgCount (c : Core) (i : Nat) (m : Msg) :
    (c.set i m).allocMsgCount = c.allocMsgCount := rfl
@[simp] theorem set_fragId (c : Core) (i : Nat) (m : Msg) : (c.set i m).fragId = c.fragId := rfl
@[simp] theorem set_msgId (c : Core) (i : Nat) (m : Msg) : (c.set i m).msgId = c.msgId := rfl

end Core

def Core.boot : Core :=
  ⟨0, 0, 0, [], 0, fun _ => Msg.fresh 0, 0⟩

def msgInit (c : Core) : Core := { c with msgId := 0, fragId := 0, nfreeMsgq := 0, freeMsgq := [] }

def msgInitAt (c : Core) (i : Nat) : Core × Option Nat :=
  ({ c with msgId := c.msgId + 1, msgs := Function.update c.msgs i (Msg.fresh (c.msgId + 1)) },
    some i)

def _msgGet (cfg : Config) (c : Core) (forceAlloc allocOk : Bool) : Core × Option Nat :=
  match c.freeMsgq with
  | i :: rest => msgInitAt { c with nfreeMsgq := c.nfreeMsgq - 1, freeMsgq := rest } i
  | [] =>
    if cfg.allowedAllocMsgs ≤ c.allocMsgCount ∧ !forceAlloc then (c, none)
    else if cfg.maxAllocMsgs ≤ c.allocMsgCount then (c, none)
    else
      let c := { c with allocMsgCount := c.allocMsgCount + 1 }
      if allocOk then msgInitAt { c with nmsgs := c.nmsgs + 1 } c.nmsgs else (c, none)

def msgParser (request redis dynMode : Bool) : Parser :=
  if redis then
    if request then (if dynMode then .dynParseReq else .redisParseReq)
    else (if dynMode then .dynParseRsp else .redisParseRsp)
  else
    if request then (if dynMode then .dynParseReq else .memcacheParseReq)
    else (if dynMode then .dynParseRsp else .memcacheParseRsp)

def msgGet (cfg : Config) (c : Core) (conn : Conn) (request redis allocOk : Bool) :
    Core × Option Nat :=
  match _msgGet cfg c conn.dynMode allocOk with
  | (c, none) => (c, none)
  | (c, some i) =>
    let d : Dialect := if redis then .redis else .memcache
    (c.set i { c.msgs i with
      owner := some conn.sd, request := request, redis := redis,
      parser := some (msgParser request redis conn.dynMode),
      preSplitcopy := some d, postSplitcopy := some d,
      preCoalesce := some d, postCoalesce := some d }, some i)

def msgPut (c : Core) (i : Nat) : Core :=
  { c.set i { c.msgs i with dmsg := none, mhdr := [] } with
    nfreeMsgq := c.nfreeMsgq + 1, freeMsgq := i :: c.freeMsgq }

/-- `msg_deinit`: walk the free queue asserting a positive count and an empty
chain at every object, and a zero count at the end; `none` when an assertion
fails. -/
def msgDeinit (c : Core) : Option Core :=
  go c.freeMsgq c.nfreeMsgq
where
  go : List Nat → UInt32 → Option Core
    | [], n => if n = 0 then some { c with freeMsgq := [], nfreeMsgq := 0 } else none
    | i :: rest, n => if 0 < n ∧ (c.msgs i).mhdr = [] then go rest (n - 1) else none

def msgLength (m : Msg) : UInt32 := (m.mhdr.map Mbuf.len).sum.toUInt32

def msgMbufSize (m : Msg) : UInt32 := m.mhdr.length.toUInt32

def msgEmpty (m : Msg) : Bool := m.mlen == 0

/-! ## The error reply -/

inductive DynError
  | peerConnectionRefuse
  | storageConnectionRefuse
  | other (code : Nat)
deriving DecidableEq, Repr

def ascii (s : String) : List UInt8 := s.toList.map fun ch => ch.toNat.toUInt8

/-- `dn_scnprintf(buf, size, ...)` of `dyn_util.c`, outside this file, formats
with `vsnprintf`, which writes at most `size - 1` bytes of the text and a NUL,
and returns the number of bytes written: the text cut to `size - 1` bytes. -/
def scnprintf (size : Nat) (text : List UInt8) : List UInt8 := text.take (size - 1)

/-- `"%s %s %s" CRLF` of `msg_get_error`.  `source` is left unset by the source
for any other `dyn_err`: `stale` stands for what the stack slot holds. -/
def errorText (redis : Bool) (dynErr : DynError) (errstr stale : String) : List UInt8 :=
  let protstr := if redis then "-ERR" else "SERVER_ERROR"
  let source := match dynErr with
    | .peerConnectionRefuse => "Peer:"
    | .storageConnectionRefuse => "Storage:"
    | .other _ => stale
  ascii (protstr ++ " " ++ source ++ " " ++ errstr ++ "\r\n")

def msgGetError (cfg : Config) (c : Core) (redis : Bool) (dynErr : DynError) (err : Nat)
    (strerror : Nat → String) (stale : String) (allocOk mbufOk : Bool) : Core × Option Nat :=
  match _msgGet cfg c true allocOk with
  | (c, none) => (c, none)
  | (c, some i) =>
    let c := c.set i { c.msgs i with type := .rspMcServerError }
    if mbufOk then
      let errstr := if err ≠ 0 then strerror err else "unknown"
      let text := scnprintf (sizeT (mbufSize cfg mbufGet))
        (errorText redis dynErr errstr stale)
      (c.set i { c.msgs i with mhdr := [mbufCopy mbufGet text], mlen := text.length.toUInt32 },
        some i)
    else (msgPut c i, none)

/-! ## Cloning -/

def cloneMbufs (mbufOk : Nat → Bool) : Nat → List Mbuf → Msg → Msg × RStatus
  | _, [], t => (t, .ok)
  | j, b :: bs, t =>
    if mbufOk j then cloneMbufs mbufOk (j + 1) bs { t with mhdr := t.mhdr ++ [mbufCopy mbufGet b.unread] }
    else (t, .enomem)

/-- `msg_clone(src, mbuf_start, target)`; `mbuf_start` is given by its place in
`src`'s chain (past the end: not in the chain, nothing is copied). -/
def msgClone (src : Msg) (mbufStart : Nat) (target : Msg) (mbufOk : Nat → Bool) : Msg × RStatus :=
  cloneMbufs mbufOk 0 (src.mhdr.drop mbufStart)
    { target with
      owner := src.owner, request := src.request, redis := src.redis, parser := src.parser,
      preSplitcopy := src.preSplitcopy, postSplitcopy := src.postSplitcopy,
      preCoalesce := src.preCoalesce, postCoalesce := src.postCoalesce,
      noreply := src.noreply, type := src.type, keyStart := src.keyStart, keyEnd := src.keyEnd,
      mlen := src.mlen, pos := src.pos, vlen := src.vlen, isRead := src.isRead }

end Dynomite
