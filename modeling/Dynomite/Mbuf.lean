import Mathlib.Data.Finset.Card
import Mathlib.Algebra.Order.Ring.Nat

/-! # Buffer segments and chains

The mbuf helpers that `dyn_message.c` calls (`mbuf_get`, `mbuf_length`,
`mbuf_size`, `mbuf_empty`, `mbuf_full`, `mbuf_copy`, `mbuf_split`) live in
`dyn_mbuf.[ch]`, which is not part of the source given here: they are modelled
from the spec.  An mbuf keeps the bytes written to it split at its read marker:
`consumed` is `[start, pos)` and `unread` is `[pos, last)`, so
`start ≤ pos ≤ last` holds by construction: `data` is `[start, last)`, `len` is
`last - start`, `mbufLength` is `last - pos`, and `advance` is `mbuf->pos += k`.
Every mbuf of the pool has the same geometry, `mbufCap` bytes of data space
`[start, end)` followed by `mbufExtra` bytes of ciphertext staging
`[end, end_extra)`; `mbufSize` and `mbufRoomExtra` are `end - last` and
`end_extra - last` as pointer differences, which `sizeT` reads as a `size_t`.
A chain is a list of mbufs; `lastMbuf` is `STAILQ_LAST`, an empty chain
reading as one empty mbuf.

`Config` gathers the constants the file takes from headers and from the
platform (`IOV_MAX`, which `DN_IOV_MAX` caps at 128, `SSIZE_MAX`, the message
caps); `smallConfig` is a small build for the examples: 16-byte mbufs with 4
bytes of staging, eight objects at most, four for client traffic. -/

set_option autoImplicit false

namespace Dynomite

/-- Build and platform constants read by `dyn_message.c`. -/
structure Config where
  mbufCap : Nat
  mbufExtra : Nat
  iovMax : Nat
  ssizeMax : Nat
  allowedAllocMsgs : UInt32
  maxAllocMsgs : UInt32

def dnIovMax (cfg : Config) : Nat := if cfg.iovMax > 128 then 128 else cfg.iovMax

theorem dnIovMax_le (cfg : Config) : dnIovMax cfg ≤ 128 := by
  unfold dnIovMax; split <;> omega

def smallConfig : Config := ⟨16, 4, 1024, 2 ^ 63 - 1, 4, 8⟩

def sizeT (x : Int) : Nat := (x % 2 ^ 64).toNat

theorem sizeT_of_lt {x : Int} (h0 : 0 ≤ x) (h : x < 2 ^ 64) : (sizeT x : Int) = x := by
  rw [sizeT, Int.emod_eq_of_lt h0 h, Int.toNat_of_nonneg h0]

structure Mbuf where
  consumed : List UInt8
  unread : List UInt8
  readFlip : Bool
deriving DecidableEq, Repr

namespace Mbuf

def data (b : Mbuf) : List UInt8 := b.consumed ++ b.unread

def len (b : Mbuf) : Nat := b.consumed.length + b.unread.length

def advance (b : Mbuf) (k : Nat) : Mbuf :=
  { b with consumed := b.consumed ++ b.unread.take k, unread := b.unread.drop k }

@[simp] theorem len_eq (b : Mbuf) : b.len = b.data.length := by simp [len, data]

@[simp] theorem advance_data (b : Mbuf) (k : Nat) : (b.advance k).data = b.data := by
  simp [advance, data]

@[simp] theorem advance_unread (b : Mbuf) (k : Nat) : (b.advance k).unread = b.unread.drop k := rfl

end Mbuf

/-- Modelled from the spec: `mbuf_get` hands out an mbuf with
`pos = last = start`; its failure is a separate outcome of each caller. -/
def mbufGet : Mbuf := ⟨[], [], false⟩

def mbufLength (b : Mbuf) : Nat := b.unread.length

def mbufEmpty (b : Mbuf) : Bool := b.unread.isEmpty

def mbufFull (cfg : Config) (b : Mbuf) : Bool := b.len == cfg.mbufCap

def mbufSize (cfg : Config) (b : Mbuf) : Int := cfg.mbufCap - b.len

def mbufRoomExtra (cfg : Config) (b : Mbuf) : Int := cfg.mbufCap + cfg.mbufExtra - b.len

/-- Modelled from the spec: `mbuf_copy(mbuf, pos, n)` appends `n` bytes at
`last`. -/
def mbufCopy (b : Mbuf) (bytes : List UInt8) : Mbuf := { b with unread := b.unread ++ bytes }

@[simp] theorem mbufCopy_data (b : Mbuf) (bytes : List UInt8) :
    (mbufCopy b bytes).data = b.data ++ bytes := by simp [mbufCopy, Mbuf.data]

@[simp] theorem mbufGet_data : mbufGet.data = [] := rfl

theorem mbufEmpty_iff (b : Mbuf) : mbufEmpty b = true ↔ mbufLength b = 0 := by
  simp [mbufEmpty, mbufLength]

/-! ## Chains

A chain (`STAILQ` of mbufs) is a list in arrival order; the tail is its last
element. -/

/-- The bytes `[start, last)` of every mbuf of the chain, in order. -/
def chainBytes (h : List Mbuf) : List UInt8 := (h.map Mbuf.data).flatten

def chainUnread (h : List Mbuf) : List UInt8 := (h.map Mbuf.unread).flatten

@[simp] theorem chainBytes_nil : chainBytes [] = [] := rfl

@[simp] theorem chainBytes_append (h h' : List Mbuf) :
    chainBytes (h ++ h') = chainBytes h ++ chainBytes h' := by simp [chainBytes]

@[simp] theorem chainBytes_cons (b : Mbuf) (h : List Mbuf) :
    chainBytes (b :: h) = b.data ++ chainBytes h := by simp [chainBytes]

@[simp] theorem chainUnread_nil : chainUnread [] = [] := rfl

@[simp] theorem chainUnread_append (h h' : List Mbuf) :
    chainUnread (h ++ h') = chainUnread h ++ chainUnread h' := by simp [chainUnread]

@[simp] theorem chainUnread_cons (b : Mbuf) (h : List Mbuf) :
    chainUnread (b :: h) = b.unread ++ chainUnread h := by simp [chainUnread]

def lastMbuf (h : List Mbuf) : Mbuf := h.getLast?.getD mbufGet

def setLast (h : List Mbuf) (b : Mbuf) : List Mbuf := h.dropLast ++ [b]

@[simp] theorem lastMbuf_append_single (h : List Mbuf) (b : Mbuf) : lastMbuf (h ++ [b]) = b := by
  simp [lastMbuf]

@[simp] theorem setLast_append_single (h : List Mbuf) (b b' : Mbuf) :
    setLast (h ++ [b]) b' = h ++ [b'] := by simp [setLast]

theorem chain_eq_dropLast_append (h : List Mbuf) (hne : h ≠ []) :
    h = h.dropLast ++ [lastMbuf h] := by
  obtain ⟨init, b, rfl⟩ := List.eq_nil_or_concat h |>.resolve_left hne
  simp

/-- Modelled from the spec: `mbuf_split(h, pos, cb, cbarg)` cuts the chain's
tail at byte offset `p` from its start.  The tail keeps `[start, p)`; a fresh
mbuf receives what the pre-copy callback writes, then `[p, last)`.  `none` when
`mbuf_get` fails (`mbufOk = false`), and then the chain is not touched.  The
source asserts `mbuf->pos ≤ p ≤ last` on the tail. -/
def mbufSplit (h : List Mbuf) (p : Nat) (precopy : List UInt8) (mbufOk : Bool) :
    Option (List Mbuf × Mbuf) :=
  if mbufOk then
    let t := lastMbuf h
    let k := p - t.consumed.length
    some (setLast h { t with unread := t.unread.take k },
      mbufCopy (mbufCopy mbufGet precopy) (t.unread.drop k))
  else none

theorem chainBytes_setLast (h : List Mbuf) (b : Mbuf) :
    chainBytes (setLast h b) = chainBytes h.dropLast ++ b.data := by
  simp [setLast]

theorem chainBytes_dropLast (h : List Mbuf) : chainBytes h = chainBytes h.dropLast ++ (lastMbuf h).data := by
  rcases List.eq_nil_or_concat h with rfl | ⟨init, b, rfl⟩
  · rfl
  · simp

/-- `mbuf_split` moves the bytes after `p` to the new mbuf, behind the pre-copy,
and keeps the rest: no byte is lost or duplicated. -/
theorem mbufSplit_bytes {h h' : List Mbuf} {p : Nat} {precopy : List UInt8} {mbufOk : Bool}
    {nbuf : Mbuf} (hs : mbufSplit h p precopy mbufOk = some (h', nbuf)) :
    ∃ moved, nbuf.data = precopy ++ moved ∧ nbuf.consumed = [] ∧ chainBytes h' ++ moved = chainBytes h := by
  unfold mbufSplit at hs
  split at hs
  · simp only [Option.some.injEq, Prod.mk.injEq] at hs
    obtain ⟨rfl, rfl⟩ := hs
    refine ⟨(lastMbuf h).unread.drop (p - (lastMbuf h).consumed.length), by simp [mbufGet, Mbuf.data, mbufCopy],
      rfl, ?_⟩
    rw [chainBytes_setLast, chainBytes_dropLast h, List.append_assoc]
    simp [Mbuf.data]
  · cases hs

end Dynomite
