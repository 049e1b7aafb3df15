import Dynomite.RecvInv

/-! # The parse loop ends

The parse loop of `msg_recv_chain` runs `msg_parse` on the current message and
goes on with whatever `recv_next(false)` hands out, until that is nothing or
the same message.  It goes on only after `msg_parsed` or `msg_fragment` split
the message and `recv_done` made the split-off part current
(`msgParse_continue`); `AGAIN`, `REPAIR` and a parse error in `dyn_mode` leave
the same message current (`msgParse_stays`).

The bytes of a message that `conn_recv` delivered are its chain less the
prefix `pre_splitcopy` wrote (`received`).  When the parser leaves `pos` past
at least one of them (`Advances`), the new current message holds only bytes
after `pos`, so it has fewer received bytes than the one it came from, and the
loop uses at most one parser outcome more than the received bytes of the
message it started on (`parse_loop_terminates`). -/

set_option autoImplicit false

namespace Dynomite

/-! ## Received bytes -/

/-- The bytes of `m` that `conn_recv` delivered, when the first `syn` bytes of
its chain are what `pre_splitcopy` wrote. -/
def received (syn : Nat) (m : Msg) : Nat := (chainBytes m.mhdr).length - syn

/-- The prefix `pre_splitcopy` wrote into the message an iteration makes
current: its pre-copy for a fragment, nothing for `msg_parsed`. -/
def nextSyn (io : ParseIO) : Nat := if io.result = .fragment then io.precopy.length else 0

/-- The parser advances: an `OK` or `FRAGMENT` result leaves `pos` in the tail
mbuf, after at least one byte past the first `syn` of the chain. -/
def Advances (syn : Nat) (m : Msg) (io : ParseIO) : Prop :=
  (io.result = .ok ∨ io.result = .fragment) →
    syn < (chainBytes m.mhdr.dropLast).length + io.pos ∧ io.pos ≤ (lastMbuf m.mhdr).len

instance (syn : Nat) (m : Msg) (io : ParseIO) : Decidable (Advances syn m io) :=
  inferInstanceAs (Decidable (_ → _))

theorem mbufSplit_kept_length {h h' : List Mbuf} {p : Nat} {precopy : List UInt8} {mbufOk : Bool}
    {nbuf : Mbuf} (hs : mbufSplit h p precopy mbufOk = some (h', nbuf)) (hp : p ≤ (lastMbuf h).len) :
    (chainBytes h.dropLast).length + p ≤ (chainBytes h').length := by
  unfold mbufSplit at hs
  split at hs
  · simp only [Option.some.injEq, Prod.mk.injEq] at hs
    obtain ⟨rfl, -⟩ := hs
    simp only [Mbuf.len_eq, Mbuf.data, List.length_append] at hp
    simp only [chainBytes_setLast, Mbuf.data, List.length_append, List.length_take]
    omega
  · cases hs

theorem moved_lt_received {syn : Nat} {m : Msg} {io : ParseIO} {precopy : List UInt8} {hd : List Mbuf}
    {nbuf : Mbuf} (hadv : Advances syn m io) (hres : io.result = .ok ∨ io.result = .fragment)
    (hs : mbufSplit m.mhdr io.pos precopy io.mbufOk = some (hd, nbuf)) :
    ∃ moved, nbuf.data = precopy ++ moved ∧ moved.length < received syn m := by
  obtain ⟨moved, hdata, -, hbytes⟩ := mbufSplit_bytes hs
  obtain ⟨hsyn, hpos⟩ := hadv hres
  have hkept := mbufSplit_kept_length hs hpos
  have hlen := congrArg List.length hbytes
  rw [List.length_append] at hlen
  exact ⟨moved, hdata, by unfold received; omega⟩

/-! ## One iteration -/

section Iteration

variable {cfg : Config} {s s' : RecvSys} {i j syn : Nat} {io : ParseIO}

theorem moveSplit_received_lt {t : RecvSys} {c : Core} {conn : Conn} {request redis allocOk : Bool}
    {precopy : List UInt8} {hd : List Mbuf} {nbuf : Mbuf} (hadv : Advances syn (s.msg i) io)
    (hres : io.result = .ok ∨ io.result = .fragment)
    (hsplit : mbufSplit (s.msg i).mhdr io.pos precopy io.mbufOk = some (hd, nbuf))
    (hget : msgGet cfg t.core conn request redis allocOk = (c, some j)) (hji : j ≠ i) :
    received precopy.length ((moveSplit { t with core := c } i j nbuf).msg j) < received syn (s.msg i) := by
  obtain ⟨moved, hdata, hlt⟩ := moved_lt_received hadv hres hsplit
  obtain ⟨-, hmsgs, -, -⟩ := msgGet_some hget
  rw [moveSplit_msg_right _ (Ne.symm hji)]
  simpa [received, RecvSys.msg, hmsgs, msgGot, Msg.fresh, hdata] using hlt

@[simp] theorem invokeParser_msg_mhdr (s : RecvSys) (i : Nat) (io : ParseIO) :
    ((invokeParser s i io).msg i).mhdr = (s.msg i).mhdr := by
  simp [invokeParser]

@[simp] theorem invokeParser_msg_pos (s : RecvSys) (i : Nat) (io : ParseIO) :
    ((invokeParser s i io).msg i).pos = io.pos := by
  simp [invokeParser]

@[simp] theorem linkFragment_msg_mhdr (s : RecvSys) (i j k : Nat) :
    ((linkFragment s i j).msg k).mhdr = (s.msg k).mhdr :=
  (congrArg Msg.mhdr ((linkFragment_frame s i j).unfrag k) :)

@[simp] theorem invokeParser_conn (s : RecvSys) (i : Nat) (io : ParseIO) :
    (invokeParser s i io).conn = s.conn := rfl

theorem msgParse_continue (hcur : s.conn.rmsg = some i) (hadv : Advances syn (s.msg i) io)
    (h : msgParse cfg s i io = (s', .ok)) (hj : s'.conn.rmsg = some j) (hji : j ≠ i) :
    (∃ id fragId data, s'.log.getLast? = some (.recvDone i id fragId data (some j))) ∧
      received (nextSyn io) (s'.msg j) < received syn (s.msg i) := by
  rcases msgParse_ok h with ⟨-, rfl⟩ | ⟨-, ⟨hres, hp⟩ | ⟨hres, hp⟩ | ⟨-, hrep⟩ | ⟨-, rfl⟩⟩
  · simp at hj
  · rcases msgParsed_ok hp with ⟨-, rfl⟩ | ⟨hd, nbuf, c, j', hsplit, hget, rfl⟩
    · simp at hj
    · obtain rfl : j = j' := (Option.some.inj hj).symm
      simp only [invokeParser_msg_mhdr, invokeParser_msg_pos] at hsplit
      refine ⟨⟨_, _, _, List.getLast?_concat ..⟩, ?_⟩
      simpa [nextSyn, hres] using moveSplit_received_lt hadv (Or.inl hres) hsplit hget hji
  · obtain ⟨hd, nbuf, patch, c, j', hsplit, -, hget, rfl⟩ := msgFragment_ok hp
    obtain rfl : j = j' := (Option.some.inj hj).symm
    simp only [invokeParser_msg_mhdr, invokeParser_msg_pos] at hsplit
    refine ⟨⟨_, _, _, List.getLast?_concat ..⟩, ?_⟩
    simpa [received, nextSyn, hres] using moveSplit_received_lt hadv (Or.inr hres) hsplit hget hji
  · obtain ⟨hd, nbuf, -, rfl⟩ := msgRepair_ok hrep
    rw [RecvSys.setMsg_conn, invokeParser_conn, hcur] at hj
    exact absurd (Option.some.inj hj).symm hji
  · rw [invokeParser_conn, hcur] at hj
    exact absurd (Option.some.inj hj).symm hji

theorem msgParse_stays (hcur : s.conn.rmsg = some i) (hne : msgEmpty (s.msg i) = false)
    (hres : io.result = .again ∨ io.result = .repair ∨ (io.result = .error ∧ s.conn.dynMode = true))
    (h : msgParse cfg s i io = (s', .ok)) : s'.conn.rmsg = some i := by
  rcases msgParse_ok h with ⟨hempty, -⟩ | ⟨-, ⟨hok, -⟩ | ⟨hfrag, -⟩ | ⟨-, hrep⟩ | ⟨-, rfl⟩⟩
  · rw [hne] at hempty; cases hempty
  · rcases hres with h' | h' | ⟨h', -⟩ <;> rw [hok] at h' <;> cases h'
  · rcases hres with h' | h' | ⟨h', -⟩ <;> rw [hfrag] at h' <;> cases h'
  · obtain ⟨hd, nbuf, -, rfl⟩ := msgRepair_ok hrep
    exact hcur
  · exact hcur

end Iteration

/-! ## The loop -/

/-- Every parser invocation the loop makes advances: on message `i`, whose
first `syn` bytes `pre_splitcopy` wrote, and on each message an iteration
makes current. -/
def LoopAdvances (cfg : Config) : List ParseIO → RecvSys → Nat → Nat → Prop
  | [], _, _, _ => True
  | io :: ios, s, i, syn => Advances syn (s.msg i) io ∧
    ∀ s' j, msgParse cfg s i io = (s', .ok) → s'.conn.rmsg = some j → j ≠ i →
      LoopAdvances cfg ios s' j (nextSyn io)

section Loop

variable {cfg : Config}

theorem parseLoop_cons (io : ParseIO) (s : RecvSys) (i : Nat) :
    (∃ r, ∀ ios, parseLoop cfg (io :: ios) s i = some r) ∨
    ∃ s' j, msgParse cfg s i io = (s', .ok) ∧ s'.conn.rmsg = some j ∧ j ≠ i ∧
      ∀ ios, parseLoop cfg (io :: ios) s i = parseLoop cfg ios s' j := by
  rcases hp : msgParse cfg s i io with ⟨s', st⟩
  cases st
  case ok =>
    cases hj : s'.conn.rmsg with
    | none => exact Or.inl ⟨(s', .ok), fun ios => by simp [parseLoop, hp, recvNext_no_alloc, hj]⟩
    | some j =>
      by_cases hji : j = i
      · exact Or.inl ⟨(s', .ok), fun ios => by simp [parseLoop, hp, recvNext_no_alloc, hj, hji]⟩
      · exact Or.inr ⟨s', j, rfl, hj, hji, fun ios => by simp [parseLoop, hp, recvNext_no_alloc, hj, hji]⟩
  all_goals exact Or.inl ⟨msgParse cfg s i io, fun ios => by simp [parseLoop, hp]⟩

theorem parseLoop_bound {ios : List ParseIO} {s : RecvSys} {i syn : Nat} (hcur : s.conn.rmsg = some i)
    (hadv : LoopAdvances cfg ios s i syn) :
    (∀ n, received syn (s.msg i) + 1 ≤ n → parseLoop cfg (ios.take n) s i = parseLoop cfg ios s i) ∧
      (received syn (s.msg i) + 1 ≤ ios.length → (parseLoop cfg ios s i).isSome) := by
  induction ios generalizing s i syn with
  | nil => exact ⟨fun n _ => by simp, fun h => absurd h (by simp)⟩
  | cons io ios ih =>
    rcases @parseLoop_cons cfg io s i with ⟨r, hr⟩ | ⟨s', j, hp, hj, hji, hnext⟩
    · refine ⟨fun n hn => ?_, fun _ => by simp [hr]⟩
      obtain ⟨m, rfl⟩ : ∃ m, n = m + 1 := ⟨n - 1, by omega⟩
      rw [List.take_succ_cons, hr, hr]
    · have hlt := (msgParse_continue hcur hadv.1 hp hj hji).2
      have hrest := ih hj (hadv.2 s' j hp hj hji)
      refine ⟨fun n hn => ?_, fun hn => ?_⟩
      · obtain ⟨m, rfl⟩ : ∃ m, n = m + 1 := ⟨n - 1, by omega⟩
        rw [List.take_succ_cons, hnext, hnext, hrest.1 m (by omega)]
      · rw [hnext]
        exact hrest.2 (by simp at hn; omega)

end Loop

/-- The parse loop of `msg_recv_chain` ends.  An iteration after which
`recv_next` hands out another message handed the current one to `recv_done`,
which made the other one current, and that one holds fewer received bytes when
the parser advanced; after `AGAIN`, `REPAIR` or a parse error in `dyn_mode`
`recv_next` hands out the same message and the loop returns; so with a parser
that always advances,
the loop uses at most one outcome more than the received bytes of the message
it starts on, and returns once it has that many. -/
theorem parse_loop_terminates (cfg : Config) :
    (∀ (s s' : RecvSys) (i j syn : Nat) (io : ParseIO), s.conn.rmsg = some i →
      Advances syn (s.msg i) io → msgParse cfg s i io = (s', .ok) →
      (recvNext cfg s' false false).2 = some j → j ≠ i →
      (∃ id fragId data, s'.log.getLast? = some (.recvDone i id fragId data (some j))) ∧
        received (nextSyn io) (s'.msg j) < received syn (s.msg i)) ∧
    (∀ (s s' : RecvSys) (i : Nat) (io : ParseIO), s.conn.rmsg = some i → msgEmpty (s.msg i) = false →
      (io.result = .again ∨ io.result = .repair ∨ (io.result = .error ∧ s.conn.dynMode = true)) →
      msgParse cfg s i io = (s', .ok) →
      (recvNext cfg s' false false).2 = some i ∧ ∀ ios, parseLoop cfg (io :: ios) s i = some (s', .ok)) ∧
    (∀ (s : RecvSys) (i syn : Nat) (ios : List ParseIO), s.conn.rmsg = some i →
      LoopAdvances cfg ios s i syn →
      (∀ n, received syn (s.msg i) + 1 ≤ n → parseLoop cfg (ios.take n) s i = parseLoop cfg ios s i) ∧
        (received syn (s.msg i) + 1 ≤ ios.length → (parseLoop cfg ios s i).isSome)) := by
  refine ⟨fun s s' i j syn io hcur hadv hp hj hji => ?_, fun s s' i io hcur hne hres hp => ?_,
    fun s i syn ios hcur hadv => parseLoop_bound hcur hadv⟩
  · rw [recvNext_no_alloc] at hj
    exact msgParse_continue hcur hadv hp hj hji
  · have hi := msgParse_stays hcur hne hres hp
    exact ⟨by rw [recvNext_no_alloc, hi], fun ios => by simp [parseLoop, hp, recvNext_no_alloc, hi]⟩

/-- The parser's verdicts on `get a\r\nget b\r\n`: each request ends after
its 7 bytes, and then there is nothing more to parse. -/
def parseOk7 : ParseIO := ⟨.ok, 7, [], none, 0, true, true⟩

def parseAgain : ParseIO := ⟨.again, 0, [], none, 0, true, true⟩

def pipelineAgainCall : ChainIO :=
  ⟨true, true, .bytes (ascii ("get a\r\nget b\r\n")), true, true, [parseAgain]⟩

def pipelineParses : List ParseIO := parseOk7 :: parseOk7 :: List.replicate 13 parseAgain

theorem parse_loop_terminates_pipeline :
    ∃ s, recvRun smallConfig id [.call pipelineAgainCall] ⟨msgInit Core.boot, clientConn, true, []⟩ =
        some (s, [.ok]) ∧ s.conn.rmsg = some 0 ∧ received 0 (s.msg 0) = 14 ∧
      received 0 ((msgParse smallConfig s 0 parseOk7).1.msg 1) < received 0 (s.msg 0) ∧
      (∀ ios, parseLoop smallConfig (parseAgain :: ios) s 0 =
        some ((msgParse smallConfig s 0 parseAgain).1, .ok)) ∧
      LoopAdvances smallConfig pipelineParses s 0 0 ∧
      (∀ n, 15 ≤ n → parseLoop smallConfig (pipelineParses.take n) s 0 = parseLoop smallConfig pipelineParses s 0) ∧
      (parseLoop smallConfig pipelineParses s 0).isSome := by
  refine ⟨_, rfl, rfl, rfl, ?_, ?_, (and_iff_left_of_imp fun hadv => ?_).2 ?_⟩
  · exact And.right <| (parse_loop_terminates smallConfig).1 _ _ 0 1 0 parseOk7 (by rfl) (by decide) (by rfl)
      (by rfl) (by decide)
  · exact And.right <| (parse_loop_terminates smallConfig).2.1 _ _ 0 parseAgain (by rfl) (by decide)
      (Or.inl rfl) (by rfl)
  · have h := (parse_loop_terminates smallConfig).2.2 _ 0 0 _ rfl hadv
    exact ⟨h.1, h.2 (by decide)⟩
  · refine ⟨by decide, fun s' j hp hj _ => ?_⟩
    obtain rfl := congrArg Prod.fst hp
    obtain rfl : 1 = j := Option.some.inj hj
    refine ⟨by decide, fun s'' j' hp' hj' _ => ?_⟩
    obtain rfl := congrArg Prod.fst hp'
    cases hj'

end Dynomite
