import Dynomite.Pool

/-! # The receive engine

`msg_recv_chain` reads into the tail mbuf of the connection's current message
(a fresh mbuf when there is none, when it is full, or, for a ciphertext
payload, when it is written up to `end_extra`), swaps a ciphertext buffer for
its decryption once the payload is complete or the buffer is full, and runs the
parse loop: `msg_parse` on the message, then on whatever `recv_next` hands out,
until it hands out nothing or the same message.  `msg_parsed` splits a message
at the parser's position, `msg_fragment` does the same for a multi-key request
and links the pieces into a fragment group, and `msg_repair` moves the unparsed
tail into a fresh mbuf.

What the file calls but does not define is given as data, one record per call:
what `conn_recv` read, what the parser left in `result` and `pos`, what the
split callbacks wrote, and whether each `mbuf_get` and `dn_alloc` succeeded.
`recv_next` and `recv_done` are modelled from the spec: the connection holds one
current message, `recv_done(msg, nmsg)` hands `msg` upstream and makes `nmsg`
current.  The engine's observable actions go to an event log: each read with
the place and size it targets, each decrypt input, where each parser invocation
starts (`cursor`, the byte offset of `msg->pos` in the chain), and each hand-off
with the bytes handed over.  `RecvSys` is the pool, one connection and that
log; `request` says whether the connection receives requests.

`msg_parse` hands an empty message over, and otherwise invokes the parser and
follows its result; a parse error is fatal outside `dyn_mode`.  On the
ciphertext path `expected_fill` is the envelope's `plen` read as an `int`, the
read size `msize` is the smaller of it and the room up to `end_extra`, and the
swap (`decryptStep`) puts the decryption into a fresh plaintext buffer.

A run (`recvRun`) is a sequence of `RecvOp`s with the status of each;
`RecvRunAllowed` asks a predicate of every operation in the state it meets,
and `recvRun_inv`, `parseLoop_inv` and `msgRecvChain_inv` carry an invariant
that each step keeps over a run, a parse loop and a `msg_recv_chain` call. -/

set_option autoImplicit false

namespace Dynomite

/-! ## Outcomes and events -/

inductive RecvResult
  | bytes (data : List UInt8)
  | eagain
  | error
deriving DecidableEq, Repr

/-- What `post_splitcopy` does to the kept chain: the first `cut` bytes of its
head mbuf give way to `head`, and `tail` ends the chain. -/
structure PostCopy where
  cut : Nat
  head : List UInt8
  tail : List UInt8
deriving DecidableEq, Repr

/-- The outcomes one iteration of the parse loop meets: what the parser leaves
in `msg->result` and `msg->pos` (an offset from the tail mbuf's start), what
`pre_splitcopy` writes into the split-off mbuf, what `post_splitcopy` does to
the kept chain (`none`: it fails), `errno` after a parse error, and whether the
split's `mbuf_get` and `msg_get`'s `dn_alloc` succeed. -/
structure ParseIO where
  result : MsgParseResult
  pos : Nat
  precopy : List UInt8
  postcopy : Option PostCopy
  errno : Nat
  mbufOk : Bool
  allocOk : Bool
deriving DecidableEq, Repr

/-- The outcomes one `recv_next(true)` and `msg_recv_chain` call meets: the
allocation of a new current message, the `mbuf_get` of a fresh tail, what
`conn_recv` read and left in `recv_ready`, the `mbuf_get` of the plaintext
buffer, and one record per parse-loop iteration. -/
structure ChainIO where
  allocOk : Bool
  mbufOk : Bool
  read : RecvResult
  recvReady : Bool
  nbufOk : Bool
  parses : List ParseIO
deriving DecidableEq, Repr

/-- What the engine does that the rest of the system sees: `conn_recv` on
message `msg`, into its tail mbuf at `last` bytes from the start, asked for
`size` bytes, reading `data`; `dyn_aes_decrypt` on `input`; the parser invoked
on `msg` with `msg->pos` at byte `cursor` of its chain; and `recv_done(msg,
next)`, with the message's id, `frag_id` and bytes at the hand-off. -/
inductive RecvEvent
  | recv (msg last size : Nat) (data : List UInt8)
  | decrypt (input : List UInt8)
  | parse (msg cursor : Nat)
  | recvDone (msg : Nat) (id fragId : UInt64) (data : List UInt8) (next : Option Nat)
deriving DecidableEq, Repr

structure RecvSys where
  core : Core
  conn : Conn
  request : Bool
  log : List RecvEvent

namespace RecvSys

def msg (s : RecvSys) (i : Nat) : Msg := s.core.msgs i

def setMsg (s : RecvSys) (i : Nat) (m : Msg) : RecvSys := { s with core := s.core.set i m }

def emit (s : RecvSys) (e : RecvEvent) : RecvSys := { s with log := s.log ++ [e] }

@[simp] theorem setMsg_msg_self (s : RecvSys) (i : Nat) (m : Msg) : (s.setMsg i m).msg i = m :=
  Core.set_msgs_self _ _ _

@[simp] theorem setMsg_msg_ne (s : RecvSys) {i j : Nat} (m : Msg) (h : j ≠ i) :
    (s.setMsg i m).msg j = s.msg j :=
  Core.set_msgs_ne _ _ h

@[simp] theorem setMsg_conn (s : RecvSys) (i : Nat) (m : Msg) : (s.setMsg i m).conn = s.conn := rfl
@[simp] theorem setMsg_log (s : RecvSys) (i : Nat) (m : Msg) : (s.setMsg i m).log = s.log := rfl
@[simp] theorem setMsg_request (s : RecvSys) (i : Nat) (m : Msg) :
    (s.setMsg i m).request = s.request := rfl
@[simp] theorem emit_msg (s : RecvSys) (e : RecvEvent) : (s.emit e).msg = s.msg := rfl
@[simp] theorem emit_core (s : RecvSys) (e : RecvEvent) : (s.emit e).core = s.core := rfl
@[simp] theorem emit_conn (s : RecvSys) (e : RecvEvent) : (s.emit e).conn = s.conn := rfl
@[simp] theorem emit_log (s : RecvSys) (e : RecvEvent) : (s.emit e).log = s.log ++ [e] := rfl

end RecvSys

/-! ## The connection's callbacks -/

/-- Modelled from the spec: `recv_next(conn, alloc)` hands out the current
message; when there is none and `alloc` is set, it gets one with `msg_get` and
makes it current. -/
def recvNext (cfg : Config) (s : RecvSys) (alloc allocOk : Bool) : RecvSys × Option Nat :=
  match s.conn.rmsg with
  | some i => (s, some i)
  | none =>
    if alloc then
      match msgGet cfg s.core s.conn s.request s.conn.redis allocOk with
      | (c, some j) => ({ s with core := c, conn := { s.conn with rmsg := some j } }, some j)
      | (c, none) => ({ s with core := c }, none)
    else (s, none)

/-- Modelled from the spec: `recv_done(conn, msg, nmsg)` hands `msg` upstream and
makes `nmsg` the current message. -/
def recvDone (s : RecvSys) (i : Nat) (next : Option Nat) : RecvSys :=
  { s with conn := { s.conn with rmsg := next },
           log := s.log ++ [.recvDone i (s.msg i).id (s.msg i).fragId (chainBytes (s.msg i).mhdr) next] }

/-! ## Parsing -/

def cursor (m : Msg) : Nat := (chainBytes m.mhdr.dropLast).length + m.pos

def moveSplit (s : RecvSys) (i j : Nat) (nbuf : Mbuf) : RecvSys :=
  let nlen := (mbufLength nbuf).toUInt32
  let s := s.setMsg j { s.msg j with
    mhdr := (s.msg j).mhdr ++ [nbuf], pos := nbuf.consumed.length, mlen := nlen }
  s.setMsg i { s.msg i with mlen := (s.msg i).mlen - nlen }

def msgParsed (cfg : Config) (s : RecvSys) (i : Nat) (io : ParseIO) : RecvSys × RStatus :=
  let m := s.msg i
  if m.pos = (lastMbuf m.mhdr).len then (recvDone s i none, .ok)
  else
    match mbufSplit m.mhdr m.pos [] io.mbufOk with
    | none => (s, .enomem)
    | some (h, nbuf) =>
      let s := s.setMsg i { m with mhdr := h }
      match msgGet cfg s.core s.conn m.request s.conn.redis io.allocOk with
      | (c, none) => ({ s with core := c }, .enomem)
      | (c, some j) => (recvDone (moveSplit { s with core := c } i j nbuf) i (some j), .ok)

/-- Modelled from the spec, the dialect callbacks being outside this file:
`post_splitcopy` patches the kept chain.  The redis callback rewrites the
command's arity at the head, which goes into a fresh mbuf before the rest of
the head mbuf; the memcache callback ends the kept command at the tail. -/
def postSplitcopy (h : List Mbuf) (p : PostCopy) : List Mbuf :=
  match setLast h (mbufCopy (lastMbuf h) p.tail) with
  | [] => []
  | b :: bs => mbufCopy mbufGet p.head ::
      { b with consumed := b.consumed.drop p.cut, unread := b.unread.drop (p.cut - b.consumed.length) } :: bs

def openGroup (s : RecvSys) (i : Nat) : RecvSys :=
  if (s.msg i).fragId = 0 then
    let s := { s with core := { s.core with fragId := s.core.fragId + 1 } }
    s.setMsg i { s.msg i with
      fragId := s.core.fragId, firstFragment := true, nfrag := 1, fragOwner := some i }
  else s

def linkFragment (s : RecvSys) (i j : Nat) : RecvSys :=
  let s := openGroup s i
  let s := s.setMsg j { s.msg j with fragId := (s.msg i).fragId }
  let s := s.setMsg i { s.msg i with lastFragment := false }
  let s := s.setMsg j { s.msg j with lastFragment := true, fragOwner := (s.msg i).fragOwner }
  match (s.msg i).fragOwner with
  | some o => s.setMsg o { s.msg o with nfrag := (s.msg o).nfrag + 1 }
  | none => s

/-- `msg_fragment`: split at `pos` with `pre_splitcopy`, patch the kept part
with `post_splitcopy`, move the split-off mbuf to a new message (`msg_get` with
the message's own dialect), link the two as fragments and hand the message
over. -/
def msgFragment (cfg : Config) (s : RecvSys) (i : Nat) (io : ParseIO) : RecvSys × RStatus :=
  let m := s.msg i
  match mbufSplit m.mhdr m.pos io.precopy io.mbufOk with
  | none => (s, .enomem)
  | some (h, nbuf) =>
    let s := s.setMsg i { m with mhdr := h }
    match io.postcopy with
    | none => (s, .enomem)
    | some patch =>
      let s := s.setMsg i { s.msg i with mhdr := postSplitcopy (s.msg i).mhdr patch }
      match msgGet cfg s.core s.conn m.request m.redis io.allocOk with
      | (c, none) => ({ s with core := c }, .enomem)
      | (c, some j) =>
        (recvDone (linkFragment (moveSplit { s with core := c } i j nbuf) i j) i (some j), .ok)

def msgRepair (s : RecvSys) (i : Nat) (mbufOk : Bool) : RecvSys × RStatus :=
  let m := s.msg i
  match mbufSplit m.mhdr m.pos [] mbufOk with
  | none => (s, .enomem)
  | some (h, nbuf) => (s.setMsg i { m with mhdr := h ++ [nbuf], pos := nbuf.consumed.length }, .ok)

def invokeParser (s : RecvSys) (i : Nat) (io : ParseIO) : RecvSys :=
  (s.emit (.parse i (cursor (s.msg i)))).setMsg i { s.msg i with result := io.result, pos := io.pos }

def msgParse (cfg : Config) (s : RecvSys) (i : Nat) (io : ParseIO) : RecvSys × RStatus :=
  if msgEmpty (s.msg i) then (recvDone s i none, .ok)
  else
    let s := invokeParser s i io
    let r : RecvSys × RStatus :=
      match io.result with
      | .ok => msgParsed cfg s i io
      | .fragment => msgFragment cfg s i io
      | .repair => msgRepair s i io.mbufOk
      | .again => (s, .ok)
      | .error =>
        if !s.conn.dynMode then ({ s with conn := { s.conn with err := io.errno } }, .error)
        else (s, .ok)
    (r.1, if r.1.conn.err ≠ 0 then .error else r.2)

def parseLoop (cfg : Config) : List ParseIO → RecvSys → Nat → Option (RecvSys × RStatus)
  | [], _, _ => none
  | io :: ios, s, i =>
    match msgParse cfg s i io with
    | (s, .ok) =>
      match recvNext cfg s false false with
      | (s, some j) => if j = i then some (s, .ok) else parseLoop cfg ios s j
      | (s, none) => some (s, .ok)
    | r => some r

/-! ## Reading -/

def toInt32 (x : UInt32) : Int := if x.toNat < 2 ^ 31 then x.toNat else (x.toNat : Int) - 2 ^ 32

def expectedFill (m : Msg) : Int :=
  match m.dmsg with
  | some d => if d.bitField = 1 then toInt32 d.plen else -1
  | none => -1

def needsMbuf (cfg : Config) (m : Msg) : Bool :=
  m.mhdr.isEmpty || mbufFull cfg (lastMbuf m.mhdr) ||
    (expectedFill m != -1 && (lastMbuf m.mhdr).len == cfg.mbufCap + cfg.mbufExtra)

def readSize (cfg : Config) (m : Msg) (t : Mbuf) : Nat :=
  if expectedFill m = -1 then sizeT (mbufSize cfg t)
  else
    let plen : Int := ((m.dmsg.map Dmsg.plen).getD 0).toNat
    sizeT (if plen < mbufRoomExtra cfg t then plen else mbufRoomExtra cfg t)

def decryptBuffer (cfg : Config) (decrypt : List UInt8 → List UInt8) (t : Mbuf) (plen : Nat) :
    List UInt8 × Mbuf :=
  if t.len = cfg.mbufCap + cfg.mbufExtra then
    (t.data, { mbufCopy mbufGet (decrypt t.data) with readFlip := true })
  else
    (t.data.take plen,
      { mbufCopy (mbufCopy mbufGet (decrypt (t.data.take plen))) (t.data.drop plen) with
        readFlip := true })

/-- The ciphertext step after a read of `n` bytes: once the read covers `plen`
or the buffer reaches `end_extra`, swap the buffer for its decryption; then
`plen -= n`.  `none` when the plaintext buffer's `mbuf_get` fails. -/
def decryptStep (cfg : Config) (decrypt : List UInt8 → List UInt8) (s : RecvSys) (i n : Nat)
    (nbufOk : Bool) : Option RecvSys :=
  let m := s.msg i
  match m.dmsg with
  | none => some s
  | some d =>
    let t := lastMbuf m.mhdr
    let s :=
      if d.plen.toNat ≤ n ∨ t.len = cfg.mbufCap + cfg.mbufExtra then
        if nbufOk then
          let r := decryptBuffer cfg decrypt t d.plen.toNat
          some ((s.emit (.decrypt r.1)).setMsg i { m with
            mhdr := m.mhdr.dropLast ++ [r.2], pos := 0,
            mlen := m.mlen - t.len.toUInt32 + r.2.len.toUInt32 })
        else none
      else some s
    s.map fun s => s.setMsg i { s.msg i with dmsg := some { d with plen := d.plen - n.toUInt32 } }

def attachTail (cfg : Config) (s : RecvSys) (i : Nat) : RecvSys :=
  if needsMbuf cfg (s.msg i) then
    s.setMsg i { s.msg i with mhdr := (s.msg i).mhdr ++ [mbufGet], pos := mbufGet.consumed.length }
  else s

def recvData (s : RecvSys) (i size : Nat) (data : List UInt8) : RecvSys :=
  let m := s.msg i
  let t := lastMbuf m.mhdr
  (s.emit (.recv i t.len size data)).setMsg i { m with
    mhdr := setLast m.mhdr (mbufCopy t data), mlen := m.mlen + data.length.toUInt32 }

def msgRecvChain (cfg : Config) (decrypt : List UInt8 → List UInt8) (s : RecvSys) (i : Nat)
    (io : ChainIO) : Option (RecvSys × RStatus) :=
  if needsMbuf cfg (s.msg i) && !io.mbufOk then some (s, .enomem)
  else
    let s := attachTail cfg s i
    let s := { s with conn := { s.conn with recvReady := io.recvReady } }
    let m := s.msg i
    let t := lastMbuf m.mhdr
    let size := readSize cfg m t
    match io.read with
    | .eagain => some (s.emit (.recv i t.len size []), .ok)
    | .error => some (s.emit (.recv i t.len size []), .error)
    | .bytes data =>
      let data := data.take size
      let s := recvData s i size data
      if expectedFill m != -1 then
        match decryptStep cfg decrypt s i data.length io.nbufOk with
        | none => some (s, .enomem)
        | some s => parseLoop cfg io.parses s i
      else parseLoop cfg io.parses s i

/-! ## `msg_recv` and runs -/

def msgRecvLoop (cfg : Config) (decrypt : List UInt8 → List UInt8) :
    List ChainIO → RecvSys → Option (RecvSys × RStatus)
  | [], _ => none
  | io :: ios, s =>
    match recvNext cfg s true io.allocOk with
    | (s, none) => some (s, .ok)
    | (s, some i) =>
      match msgRecvChain cfg decrypt s i io with
      | some (s, .ok) => if s.conn.recvReady then msgRecvLoop cfg decrypt ios s else some (s, .ok)
      | r => r

def msgRecv (cfg : Config) (decrypt : List UInt8 → List UInt8) (ios : List ChainIO) (s : RecvSys) :
    Option (RecvSys × RStatus) :=
  msgRecvLoop cfg decrypt ios { s with conn := { s.conn with recvReady := true } }

/-- What happens on the connection: a `msg_recv_chain` call on the message
`recv_next(true)` hands out, or upstream releasing a message with `msg_put`. -/
inductive RecvOp
  | call (io : ChainIO)
  | put (i : Nat)
deriving DecidableEq, Repr

def recvOp (cfg : Config) (decrypt : List UInt8 → List UInt8) (s : RecvSys) :
    RecvOp → Option (RecvSys × RStatus)
  | .call io =>
    match recvNext cfg s true io.allocOk with
    | (s, some i) => msgRecvChain cfg decrypt s i io
    | (s, none) => some (s, .ok)
  | .put i => some ({ s with core := msgPut s.core i }, .ok)

def recvRun (cfg : Config) (decrypt : List UInt8 → List UInt8) :
    List RecvOp → RecvSys → Option (RecvSys × List RStatus)
  | [], s => some (s, [])
  | op :: ops, s =>
    match recvOp cfg decrypt s op with
    | none => none
    | some (s, st) => (recvRun cfg decrypt ops s).map fun r => (r.1, st :: r.2)

def RecvRunAllowed (cfg : Config) (decrypt : List UInt8 → List UInt8)
    (Allowed : RecvSys → RecvOp → Prop) : List RecvOp → RecvSys → Prop
  | [], _ => True
  | op :: ops, s => Allowed s op ∧
      ∀ r, recvOp cfg decrypt s op = some r → RecvRunAllowed cfg decrypt Allowed ops r.1

theorem recvRun_inv {cfg : Config} {decrypt : List UInt8 → List UInt8}
    (Inv : RecvSys → Prop) (Allowed : RecvSys → RecvOp → Prop) (Good : RStatus → Prop)
    (hstep : ∀ s op r, Inv s → Allowed s op → recvOp cfg decrypt s op = some r → Good r.2 → Inv r.1)
    {ops : List RecvOp} {s s' : RecvSys} {sts : List RStatus} (hinv : Inv s)
    (hallowed : RecvRunAllowed cfg decrypt Allowed ops s)
    (hrun : recvRun cfg decrypt ops s = some (s', sts)) (hgood : ∀ st ∈ sts, Good st) : Inv s' := by
  induction ops generalizing s sts with
  | nil =>
    cases hrun
    exact hinv
  | cons op ops ih =>
    simp only [recvRun] at hrun
    split at hrun
    · cases hrun
    · rename_i s₁ st hop
      obtain ⟨⟨s₂, sts₂⟩, hrest, hr⟩ := Option.map_eq_some'.1 hrun
      cases hr
      have hst := hgood st (List.mem_cons_self _ _)
      exact ih (hstep s op (s₁, st) hinv hallowed.1 hop hst) (hallowed.2 _ hop) hrest
        fun st' h => hgood st' (List.mem_cons_of_mem _ h)

/-- `msg_recv` is a run of `msg_recv_chain` calls, one per `ChainIO` it used:
every call but the last returned `DN_OK`, and `msg_recv` returns the last
one's status. -/
theorem msgRecvLoop_run {cfg : Config} {decrypt : List UInt8 → List UInt8} {ios : List ChainIO}
    {s : RecvSys} {r : RecvSys × RStatus} (h : msgRecvLoop cfg decrypt ios s = some r) :
    ∃ k sts, recvRun cfg decrypt ((ios.take k).map RecvOp.call) s = some (r.1, sts ++ [r.2]) ∧
      ∀ st ∈ sts, st = .ok := by
  induction ios generalizing s with
  | nil => cases h
  | cons io ios ih =>
    have hone : ∀ r', recvOp cfg decrypt s (.call io) = some r' →
        recvRun cfg decrypt ((io :: ios).take 1 |>.map RecvOp.call) s = some (r'.1, [] ++ [r'.2]) :=
      fun r' hr => by simp only [List.take_succ_cons, List.take_zero, List.map_cons, List.map_nil, recvRun, hr,
        Option.map_some', List.nil_append]
    unfold msgRecvLoop at h
    split at h
    case h_1 s₁ hnext =>
      cases h
      exact ⟨1, [], hone _ (by simp only [recvOp, hnext]), by simp⟩
    case h_2 s₁ i hnext =>
      split at h
      case h_1 s₂ hchain =>
        split at h
        case isTrue =>
          obtain ⟨k, sts, hrun, hok⟩ := ih h
          refine ⟨k + 1, .ok :: sts, ?_, by simpa using hok⟩
          simp only [List.take_succ_cons, List.map_cons, recvRun, recvOp, hnext, hchain, hrun, Option.map_some',
            List.cons_append]
        case isFalse =>
          cases h
          exact ⟨1, [], hone _ (by simp only [recvOp, hnext, hchain]), by simp⟩
      case h_2 r' _ =>
        exact ⟨1, [], hone _ (by simp only [recvOp, hnext, h]), by simp⟩

/-! ## What each call can do -/

section Inversion

variable {cfg : Config} {s s' : RecvSys} {i : Nat} {io : ParseIO}

@[simp] theorem recvDone_msg (s : RecvSys) (i : Nat) (n : Option Nat) : (recvDone s i n).msg = s.msg := rfl
@[simp] theorem recvDone_core (s : RecvSys) (i : Nat) (n : Option Nat) : (recvDone s i n).core = s.core := rfl
@[simp] theorem recvDone_rmsg (s : RecvSys) (i : Nat) (n : Option Nat) : (recvDone s i n).conn.rmsg = n := rfl

theorem moveSplit_msg_left (s : RecvSys) {i j : Nat} (hij : i ≠ j) (nbuf : Mbuf) :
    (moveSplit s i j nbuf).msg i =
      { s.msg i with mlen := (s.msg i).mlen - (mbufLength nbuf).toUInt32 } := by
  simp [moveSplit, hij]

theorem moveSplit_msg_right (s : RecvSys) {i j : Nat} (hij : i ≠ j) (nbuf : Mbuf) :
    (moveSplit s i j nbuf).msg j = { s.msg j with
      mhdr := (s.msg j).mhdr ++ [nbuf], pos := nbuf.consumed.length,
      mlen := (mbufLength nbuf).toUInt32 } := by
  simp [moveSplit, Ne.symm hij]

@[simp] theorem moveSplit_conn (s : RecvSys) (i j : Nat) (nbuf : Mbuf) :
    (moveSplit s i j nbuf).conn = s.conn := rfl

@[simp] theorem moveSplit_log (s : RecvSys) (i j : Nat) (nbuf : Mbuf) :
    (moveSplit s i j nbuf).log = s.log := rfl

@[simp] theorem recvDone_log (s : RecvSys) (i : Nat) (n : Option Nat) :
    (recvDone s i n).log =
      s.log ++ [.recvDone i (s.msg i).id (s.msg i).fragId (chainBytes (s.msg i).mhdr) n] := rfl

theorem msgParsed_ok (h : msgParsed cfg s i io = (s', .ok)) :
    ((s.msg i).pos = (lastMbuf (s.msg i).mhdr).len ∧ s' = recvDone s i none) ∨
    ∃ hd nbuf c j, mbufSplit (s.msg i).mhdr (s.msg i).pos [] io.mbufOk = some (hd, nbuf) ∧
      msgGet cfg (s.setMsg i { s.msg i with mhdr := hd }).core s.conn (s.msg i).request
        s.conn.redis io.allocOk = (c, some j) ∧
      s' = recvDone (moveSplit { s.setMsg i { s.msg i with mhdr := hd } with core := c } i j nbuf) i
        (some j) := by
  unfold msgParsed at h
  dsimp only at h
  split at h
  · exact Or.inl ⟨‹_›, (Prod.mk.inj h).1.symm⟩
  · right
    split at h
    · cases h
    · rename_i hd nbuf hsplit
      split at h
      · cases h
      · rename_i c j hget
        exact ⟨hd, nbuf, c, j, hsplit, hget, (Prod.mk.inj h).1.symm⟩

theorem msgRepair_ok {mbufOk : Bool} (h : msgRepair s i mbufOk = (s', .ok)) :
    ∃ hd nbuf, mbufSplit (s.msg i).mhdr (s.msg i).pos [] mbufOk = some (hd, nbuf) ∧
      s' = s.setMsg i { s.msg i with mhdr := hd ++ [nbuf], pos := nbuf.consumed.length } := by
  unfold msgRepair at h
  dsimp only at h
  split at h
  · cases h
  · rename_i hd nbuf hsplit
    exact ⟨hd, nbuf, hsplit, (Prod.mk.inj h).1.symm⟩

theorem msgFragment_ok (h : msgFragment cfg s i io = (s', .ok)) :
    ∃ hd nbuf patch c j, mbufSplit (s.msg i).mhdr (s.msg i).pos io.precopy io.mbufOk = some (hd, nbuf) ∧
      io.postcopy = some patch ∧
      msgGet cfg (s.setMsg i { s.msg i with mhdr := postSplitcopy hd patch }).core s.conn
        (s.msg i).request (s.msg i).redis io.allocOk = (c, some j) ∧
      s' = recvDone (linkFragment (moveSplit
        { s.setMsg i { s.msg i with mhdr := postSplitcopy hd patch } with core := c } i j nbuf) i j) i
        (some j) := by
  unfold msgFragment at h
  dsimp only at h
  split at h
  · cases h
  · rename_i hd nbuf hsplit
    split at h
    · cases h
    · rename_i patch hpatch
      have hset : (s.setMsg i { s.msg i with mhdr := hd }).setMsg i
          { (s.setMsg i { s.msg i with mhdr := hd }).msg i with
            mhdr := postSplitcopy ((s.setMsg i { s.msg i with mhdr := hd }).msg i).mhdr patch } =
          s.setMsg i { s.msg i with mhdr := postSplitcopy hd patch } := by
        simp only [RecvSys.setMsg_msg_self]
        simp only [RecvSys.setMsg, Core.set, Function.update_idem]
      rw [hset] at h
      split at h
      · cases h
      · rename_i c j hget
        exact ⟨hd, nbuf, patch, c, j, hsplit, hpatch, hget, (Prod.mk.inj h).1.symm⟩

theorem msgParse_ok (h : msgParse cfg s i io = (s', .ok)) :
    (msgEmpty (s.msg i) = true ∧ s' = recvDone s i none) ∨
    (s'.conn.err = 0 ∧
      ((io.result = .ok ∧ msgParsed cfg (invokeParser s i io) i io = (s', .ok)) ∨
       (io.result = .fragment ∧ msgFragment cfg (invokeParser s i io) i io = (s', .ok)) ∨
       (io.result = .repair ∧ msgRepair (invokeParser s i io) i io.mbufOk = (s', .ok)) ∨
       ((io.result = .again ∨ (io.result = .error ∧ s.conn.dynMode = true)) ∧
         s' = invokeParser s i io))) := by
  unfold msgParse at h
  split at h
  · exact Or.inl ⟨‹_›, (Prod.mk.inj h).1.symm⟩
  · right
    dsimp only at h
    obtain ⟨h1, h2⟩ := Prod.mk.inj h
    have herr : s'.conn.err = 0 := by
      by_contra hc
      rw [h1, if_pos hc] at h2
      cases h2
    rw [h1, if_neg (by simp [herr])] at h2
    refine ⟨herr, ?_⟩
    cases hres : io.result <;> simp only [hres] at h1 h2
    · exact Or.inl ⟨rfl, Prod.ext h1 h2⟩
    · by_cases hdyn : s.conn.dynMode = true
      · have hdyn' : (!(invokeParser s i io).conn.dynMode) = false := by simp [invokeParser, hdyn]
        rw [hdyn', if_neg Bool.false_ne_true] at h1
        exact Or.inr (Or.inr (Or.inr ⟨Or.inr ⟨rfl, hdyn⟩, h1.symm⟩))
      · have hdyn' : (!(invokeParser s i io).conn.dynMode) = true := by simpa [invokeParser] using hdyn
        rw [hdyn', if_pos rfl] at h2
        cases h2
    · exact Or.inr (Or.inr (Or.inl ⟨rfl, Prod.ext h1 h2⟩))
    · exact Or.inr (Or.inl ⟨rfl, Prod.ext h1 h2⟩)
    · exact Or.inr (Or.inr (Or.inr ⟨Or.inl rfl, h1.symm⟩))

@[simp] theorem attachTail_conn (s : RecvSys) (i : Nat) : (attachTail cfg s i).conn = s.conn := by
  unfold attachTail; split <;> rfl

@[simp] theorem recvData_conn (s : RecvSys) (i size : Nat) (data : List UInt8) :
    (recvData s i size data).conn = s.conn := rfl

theorem decryptStep_conn {decrypt : List UInt8 → List UInt8} {n : Nat} {ok : Bool}
    (h : decryptStep cfg decrypt s i n ok = some s') : s'.conn = s.conn := by
  unfold decryptStep at h
  dsimp only at h
  split at h
  · cases h; rfl
  · split at h
    · split at h
      · cases h; rfl
      · cases h
    · cases h; rfl

theorem recvNext_no_alloc (s : RecvSys) (allocOk : Bool) :
    recvNext cfg s false allocOk = (s, s.conn.rmsg) := by
  unfold recvNext
  split <;> simp_all

theorem parseLoop_inv (Inv : RecvSys → Prop) (Q : ParseIO → Prop) (Good : RStatus → Prop)
    (hgood : Good .ok)
    (hstep : ∀ s s' i io st, Inv s → s.conn.rmsg = some i → Q io → msgParse cfg s i io = (s', st) →
      Good st → Inv s')
    {ios : List ParseIO} {i : Nat} {st : RStatus} (hios : ∀ io ∈ ios, Q io) (hinv : Inv s)
    (hcur : s.conn.rmsg = some i) (h : parseLoop cfg ios s i = some (s', st)) (hst : Good st) :
    Inv s' := by
  induction ios generalizing s i with
  | nil => cases h
  | cons io ios ih =>
    have hio := hios io (List.mem_cons_self _ _)
    unfold parseLoop at h
    rcases hparse : msgParse cfg s i io with ⟨s₁, st₁⟩
    rw [hparse] at h
    cases st₁ <;> dsimp only at h
    case ok =>
      have h₁ := hstep _ _ _ _ _ hinv hcur hio hparse hgood
      rw [recvNext_no_alloc] at h
      cases hj : s₁.conn.rmsg with
      | none =>
        simp only [hj] at h
        cases h
        exact h₁
      | some j =>
        simp only [hj] at h
        split at h
        · cases h
          exact h₁
        · exact ih (fun io' h' => hios io' (List.mem_cons_of_mem _ h')) h₁ hj h
    all_goals
      cases h
      exact hstep _ _ _ _ _ hinv hcur hio hparse hst

theorem msgRecvChain_inv {decrypt : List UInt8 → List UInt8} (Inv : RecvSys → Prop)
    (Q : ParseIO → Prop) (Good : RStatus → Prop) (hgood : Good .ok)
    (hready : ∀ s b, Inv s → Inv { s with conn := { s.conn with recvReady := b } })
    (hattach : ∀ s i, Inv s → s.conn.rmsg = some i → Inv (attachTail cfg s i))
    (hnone : ∀ s i size, Inv s → s.conn.rmsg = some i →
      Inv (s.emit (.recv i (lastMbuf (s.msg i).mhdr).len size [])))
    (hrecv : ∀ s i size data, Inv s → s.conn.rmsg = some i → Inv (recvData s i size data))
    (hdecrypt : ∀ s s' i n ok, Inv s → s.conn.rmsg = some i →
      decryptStep cfg decrypt s i n ok = some s' → Inv s')
    (hstep : ∀ s s' i io st, Inv s → s.conn.rmsg = some i → Q io → msgParse cfg s i io = (s', st) →
      Good st → Inv s')
    {io : ChainIO} {i : Nat} {st : RStatus} (hios : ∀ p ∈ io.parses, Q p) (hinv : Inv s)
    (hcur : s.conn.rmsg = some i) (h : msgRecvChain cfg decrypt s i io = some (s', st))
    (hst : Good st) : Inv s' := by
  unfold msgRecvChain at h
  split at h
  · cases h
    exact hinv
  · dsimp only at h
    have h₁ := hready _ io.recvReady (hattach s i hinv hcur)
    have hcur₁ : ({ attachTail cfg s i with
        conn := { (attachTail cfg s i).conn with recvReady := io.recvReady } } : RecvSys).conn.rmsg =
        some i := by simpa using hcur
    split at h
    · cases h
      exact hnone _ _ _ h₁ hcur₁
    · cases h
      exact hnone _ _ _ h₁ hcur₁
    · split at h
      · split at h
        · cases h
          exact hrecv _ _ _ _ h₁ hcur₁
        · rename_i s₃ hdec
          exact parseLoop_inv Inv Q Good hgood hstep hios
            (hdecrypt _ _ _ _ _ (hrecv _ _ _ _ h₁ hcur₁) hcur₁ hdec)
            (by rw [decryptStep_conn hdec]; exact hcur₁) h hst
      · exact parseLoop_inv Inv Q Good hgood hstep hios (hrecv _ _ _ _ h₁ hcur₁) hcur₁ h hst

end Inversion

end Dynomite
