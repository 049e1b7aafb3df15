import Dynomite.Recv

/-! # The ciphertext path of `msg_recv_chain`

A message whose envelope has `bit_field = 1` carries `plen` ciphertext bytes.
`msg_recv_chain` reads at most `plen` of them into the tail (up to
`end_extra`), and once a read covers `plen`, or the tail reaches `end_extra`,
swaps the tail for its decryption; `plen` then drops by the bytes read.

The swap decrypts the first `plen` bytes from the start of the tail, where
`plen` is what was still missing before the read, not what the tail holds: a
payload that arrives in two reads into one mbuf has its first bytes decrypted
and its last bytes copied behind them as ciphertext
(`recv_cipher_two_reads_skip_tail`).  Once `plen` reaches `0` the message stays
on the ciphertext path, and the next call asks `conn_recv` for `0` bytes
(`recv_cipher_zero_size_read`). -/

set_option autoImplicit false

namespace Dynomite

def RecvEvent.decrypted : RecvEvent → List UInt8
  | .decrypt input => input
  | _ => []

/-- Everything handed to `dyn_aes_decrypt` over a log, in order. -/
def decryptedBytes (log : List RecvEvent) : List UInt8 := (log.map RecvEvent.decrypted).flatten

@[simp] theorem decryptedBytes_snoc (log : List RecvEvent) (e : RecvEvent) :
    decryptedBytes (log ++ [e]) = decryptedBytes log ++ e.decrypted := by
  simp [decryptedBytes]

/-! ## Which path a message takes, and how much it reads -/

section Path

variable {cfg : Config} {m : Msg} {plen : UInt32}

theorem expectedFill_eq_neg_one_iff (hd : m.dmsg = some ⟨1, plen⟩) :
    expectedFill m = -1 ↔ plen.toNat = 2 ^ 32 - 1 := by
  have hlt := u32_toNat_lt plen
  simp only [expectedFill, hd, if_true, toInt32]
  split <;> omega

theorem readSize_plen_zero (hd : m.dmsg = some ⟨1, 0⟩) {t : Mbuf}
    (ht : t.len ≤ cfg.mbufCap + cfg.mbufExtra) : readSize cfg m t = 0 := by
  have hroom : 0 ≤ mbufRoomExtra cfg t := by simp only [mbufRoomExtra]; omega
  simp only [readSize, expectedFill, hd, toInt32, if_true, Option.map_some', Option.getD_some]
  split <;> simp [sizeT] <;> omega

end Path

/-! ## The swap -/

section Swap

variable {cfg : Config} {decrypt : List UInt8 → List UInt8} {s : RecvSys} {i n : Nat} {d : Dmsg}

theorem decryptStep_wait (hd : (s.msg i).dmsg = some d) (hn : n < d.plen.toNat)
    (hroom : (lastMbuf (s.msg i).mhdr).len ≠ cfg.mbufCap + cfg.mbufExtra) (nbufOk : Bool) :
    decryptStep cfg decrypt s i n nbufOk =
      some (s.setMsg i { s.msg i with dmsg := some { d with plen := d.plen - n.toUInt32 } }) := by
  have hn' : ¬ d.plen.toNat ≤ n := by omega
  simp only [decryptStep, hd, hn', hroom, or_self, if_false, Option.map_some']

/-- A read that covers `plen`, into a tail short of `end_extra`: the first
`plen` bytes of the tail go to `dyn_aes_decrypt`, the rest of the tail is
copied behind the plaintext, and `plen` drops by `n`. -/
theorem decryptStep_swap (hd : (s.msg i).dmsg = some d) (hn : d.plen.toNat ≤ n)
    (hroom : (lastMbuf (s.msg i).mhdr).len ≠ cfg.mbufCap + cfg.mbufExtra) :
    ∃ s', decryptStep cfg decrypt s i n true = some s' ∧
      s'.log = s.log ++ [.decrypt ((lastMbuf (s.msg i).mhdr).data.take d.plen.toNat)] ∧
      chainBytes (s'.msg i).mhdr = chainBytes (s.msg i).mhdr.dropLast ++
        decrypt ((lastMbuf (s.msg i).mhdr).data.take d.plen.toNat) ++
        (lastMbuf (s.msg i).mhdr).data.drop d.plen.toNat ∧
      (s'.msg i).dmsg = some { d with plen := d.plen - n.toUInt32 } := by
  simp only [decryptStep, hd, hn, true_or, if_true, decryptBuffer, hroom, if_false,
    Option.map_some']
  exact ⟨_, rfl, rfl, by simp [chainBytes_append, Mbuf.data, mbufCopy, mbufGet], by simp⟩

end Swap

/-! ## Two runs from a fresh ciphertext request

On a connection to a peer (`dyn_mode`), message `0` is current and carries an
envelope that announces `plen` ciphertext bytes, with no mbuf yet; after each
read the parser wants more, and `flipDecrypt` stands in for `dyn_aes_decrypt`,
keeping the length. -/

def peerConn : Conn := ⟨5, true, false, 0, true, some 0⟩

def cipherMsg (plen : UInt32) : Msg := { Msg.fresh 1 with dmsg := some ⟨1, plen⟩ }

/-- The pool with the one object `msg_get` handed out, now carrying the
envelope the peer sent. -/
def cipherSys (plen : UInt32) : RecvSys :=
  ⟨{ msgInit Core.boot with msgId := 1, allocMsgCount := 1, nmsgs := 1 }.set 0 (cipherMsg plen),
    peerConn, true, []⟩

def readCall (read : RecvResult) : ChainIO :=
  ⟨true, true, read, true, true, [⟨.again, 0, [], none, 0, true, true⟩]⟩

def flipDecrypt (input : List UInt8) : List UInt8 := input.map (· ^^^ 0xff)

/-- A 10-byte payload read as 4 bytes, then 6: the swap decrypts bytes `0..5`
and copies the ciphertext bytes `6..9` behind them; `plen` is `0`. -/
theorem recv_cipher_two_reads_skip_tail :
    ∃ s', recvRun smallConfig flipDecrypt
        [.call (readCall (.bytes [0, 1, 2, 3])), .call (readCall (.bytes [4, 5, 6, 7, 8, 9]))]
        (cipherSys 10) = some (s', [.ok, .ok]) ∧
      decryptedBytes s'.log = [0, 1, 2, 3, 4, 5] ∧
      chainBytes (s'.msg 0).mhdr = flipDecrypt [0, 1, 2, 3, 4, 5] ++ [6, 7, 8, 9] ∧
      (s'.msg 0).dmsg = some ⟨1, 0⟩ :=
  ⟨_, rfl, by decide, by decide, by decide⟩

/-- The payload read in one piece is decrypted whole; `plen` is then `0`, and
the next call asks `conn_recv` for `0` bytes into the plaintext tail. -/
theorem recv_cipher_zero_size_read :
    ∃ s', recvRun smallConfig flipDecrypt
        [.call (readCall (.bytes [0, 1, 2, 3, 4, 5, 6, 7, 8, 9])), .call (readCall .eagain)]
        (cipherSys 10) = some (s', [.ok, .ok]) ∧
      decryptedBytes s'.log = [0, 1, 2, 3, 4, 5, 6, 7, 8, 9] ∧
      s'.log.getLast? = some (.recv 0 10 0 []) :=
  ⟨_, rfl, by decide, by decide⟩

end Dynomite
