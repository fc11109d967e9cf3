import Linux318.Lib.Bytes
import Mathlib.Algebra.Ring.Nat

/-!
The kernel log buffer, after `kernel/printk/printk.c` 174-182, 205-206 and 265-425. A
record is a `struct printk_log` in the bytes of the buffer, followed by its text, its
dictionary and padding. Indices are 32-bit numbers and sequence numbers 64-bit ones.
The line prefix that `log_store` formats itself is part of the call.

The buffer holds one chain of records from the first index to the next one or, after a wrap, a
chain up to a record of length zero and a second chain from the start of the buffer.
-/
namespace Linux318.Source.Printk
open Lib.Bytes

def sizeofPrintkLog : Nat := 16

def logAlign : Nat := 4

def logLineMax : Nat := 4096 - 32

def maxLogTakePart : Nat := 4

def truncMsg : List UInt8 := [60, 116, 114, 117, 110, 99, 97, 116, 101, 100, 62]

structure LogState where
  logBuf : Nat → UInt8
  logFirstSeq : Nat
  logFirstIdx : Nat
  logNextSeq : Nat
  logNextIdx : Nat

/-- The arguments of `log_store`, with the prefix in `tbuf` and the time that is recorded. -/
structure LogMsg where
  facility : Nat
  level : Nat
  flags : Nat
  tsNsec : Nat
  tbuf : List UInt8
  text : List UInt8
  dict : List UInt8
  tbuf_le : tbuf.length ≤ 49
  text_le : text.length ≤ logLineMax
  dict_lt : dict.length < 2 ^ 16

def msgLen (buf : Nat → UInt8) (idx : Nat) : Nat := get16 buf (idx + 8)

def msgTextLen (buf : Nat → UInt8) (idx : Nat) : Nat := get16 buf (idx + 10)

def msgDictLen (buf : Nat → UInt8) (idx : Nat) : Nat := get16 buf (idx + 12)

def logText (msg : Nat) : Nat := msg + sizeofPrintkLog

def logDict (buf : Nat → UInt8) (msg : Nat) : Nat := msg + sizeofPrintkLog + msgTextLen buf msg

/-- `log_from_idx`: a record of length zero sends the reader to the start of the buffer. -/
def logFromIdx (buf : Nat → UInt8) (idx : Nat) : Nat := if msgLen buf idx = 0 then 0 else idx

def logNext (buf : Nat → UInt8) (idx : Nat) : Nat :=
  if msgLen buf idx = 0 then msgLen buf 0 else (idx + msgLen buf idx) % 2 ^ 32

structure LogRecord where
  text : List UInt8
  dict : List UInt8
  facility : Nat
  flags : Nat
  level : Nat
  tsNsec : List UInt8
deriving DecidableEq

def readRecord (buf : Nat → UInt8) (msg : Nat) : LogRecord where
  text := read buf (logText msg) (msgTextLen buf msg)
  dict := read buf (logDict buf msg) (msgDictLen buf msg)
  facility := (buf (msg + 14)).toNat
  flags := (buf (msg + 15)).toNat % 32
  level := (buf (msg + 15)).toNat / 32
  tsNsec := read buf msg 8

/-- A number of steps with `log_from_idx` and `log_next`: the records and the last index. -/
def walk (buf : Nat → UInt8) : Nat → Nat → List Nat × Nat
  | 0, idx => ([], idx)
  | n + 1, idx =>
    let rest := walk buf n (logNext buf idx)
    (logFromIdx buf idx :: rest.1, rest.2)

def logbufHasSpace (logBufLen : Nat) (s : LogState) (msgSize : Nat) (empty : Bool) : Bool :=
  let free := if s.logFirstIdx < s.logNextIdx ∨ empty then
      max ((logBufLen + 2 ^ 32 - s.logNextIdx) % 2 ^ 32) s.logFirstIdx
    else s.logFirstIdx - s.logNextIdx
  decide (msgSize + sizeofPrintkLog ≤ free)

/-- The loop of `log_make_free_space`, by the number of records in the buffer. -/
def makeFreeSpaceLoop (logBufLen msgSize : Nat) : Nat → LogState → Bool × LogState
  | 0, s => (logbufHasSpace logBufLen s msgSize true, s)
  | n + 1, s =>
    if logbufHasSpace logBufLen s msgSize false then (true, s)
    else
      makeFreeSpaceLoop logBufLen msgSize n
        { s with
          logFirstIdx := logNext s.logBuf s.logFirstIdx
          logFirstSeq := s.logFirstSeq + 1 }

/-- `log_make_free_space`; false is `-ENOMEM`. -/
def logMakeFreeSpace (logBufLen : Nat) (s : LogState) (msgSize : Nat) : Bool × LogState :=
  makeFreeSpaceLoop logBufLen msgSize (s.logNextSeq - s.logFirstSeq) s

structure MsgSizes where
  textLen : Nat
  truncMsgLen : Nat
  dictLen : Nat
  padLen : Nat
  size : Nat

/-- `msg_used_size`: the padding and the whole size; the lengths are 16-bit numbers. -/
def msgUsedSize (textLen dictLen : Nat) : Nat × Nat :=
  let size := sizeofPrintkLog + textLen % 2 ^ 16 + dictLen % 2 ^ 16
  let padLen := (logAlign - size % logAlign) % logAlign
  (padLen, size + padLen)

def plainSizes (m : LogMsg) : MsgSizes :=
  let used := msgUsedSize (m.text.length + m.tbuf.length) m.dict.length
  { textLen := m.text.length, truncMsgLen := 0, dictLen := m.dict.length,
    padLen := used.1, size := used.2 }

def truncateMsg (logBufLen : Nat) (m : LogMsg) : MsgSizes :=
  let textLen := min m.text.length (logBufLen / maxLogTakePart)
  let used := msgUsedSize (textLen + truncMsg.length) 0
  { textLen, truncMsgLen := truncMsg.length, dictLen := 0, padLen := used.1, size := used.2 }

/-- The clamping of the text length in `log_store`. -/
def clampText (tlen textLen : Nat) : Nat :=
  if logLineMax < tlen + textLen then logLineMax - tlen else textLen

def fillText (buf : Nat → UInt8) (msg : Nat) (m : LogMsg) (z : MsgSizes) : Nat → UInt8 :=
  let tlen := m.tbuf.length
  let buf := write buf (logText msg) m.tbuf
  let textLen := clampText tlen z.textLen
  let buf := write buf (logText msg + tlen) (m.text.take textLen)
  let textLen := textLen + tlen
  let buf := put16 buf (msg + 10) textLen
  if z.truncMsgLen = 0 then buf
  else
    let buf := write buf (logText msg + textLen) truncMsg
    put16 buf (msg + 10) (msgTextLen buf msg + z.truncMsgLen)

/-- The rest of the record, from the dictionary to `len`. -/
def fillRecord (buf : Nat → UInt8) (msg : Nat) (m : LogMsg) (z : MsgSizes) : Nat → UInt8 :=
  let buf := fillText buf msg m z
  let buf := write buf (logDict buf msg) (m.dict.take z.dictLen)
  let buf := put16 buf (msg + 12) z.dictLen
  let buf := write buf (msg + 14) [UInt8.ofNat m.facility]
  let buf := write buf (msg + 15) [UInt8.ofNat (m.flags % 32 + 32 * (m.level % 8))]
  let buf := write buf msg ((List.range 8).map fun i => UInt8.ofNat (m.tsNsec / 256 ^ i))
  let buf := write buf (logDict buf msg + z.dictLen) (List.replicate z.padLen 0)
  put16 buf (msg + 8) z.size

/-- The second half of `log_store`, once there is space. -/
def appendRecord (logBufLen : Nat) (s : LogState) (m : LogMsg) (z : MsgSizes) : LogState :=
  let s := if logBufLen < (s.logNextIdx + z.size) % 2 ^ 32 + sizeofPrintkLog then
      { s with
        logBuf := write s.logBuf s.logNextIdx (List.replicate sizeofPrintkLog 0)
        logNextIdx := 0 }
    else s
  let buf := fillRecord s.logBuf s.logNextIdx m z
  { s with
    logBuf := buf
    logNextIdx := (s.logNextIdx + msgLen buf s.logNextIdx) % 2 ^ 32
    logNextSeq := (s.logNextSeq + 1) % 2 ^ 64 }

def logStore (logBufLen : Nat) (s : LogState) (m : LogMsg) : LogState :=
  let z := plainSizes m
  let made := logMakeFreeSpace logBufLen s z.size
  if made.1 then appendRecord logBufLen made.2 m z
  else
    let z := truncateMsg logBufLen m
    let made := logMakeFreeSpace logBufLen made.2 z.size
    if made.1 then appendRecord logBufLen made.2 m z else made.2

def emptyLog : LogState where
  logBuf _ := 0
  logFirstSeq := 0
  logFirstIdx := 0
  logNextSeq := 0
  logNextIdx := 0

open List

inductive Records (buf : Nat → UInt8) : Nat → List Nat → Nat → Prop
  | nil (a : Nat) : Records buf a [] a
  | cons {a b : Nat} {rest : List Nat}
      (covered : sizeofPrintkLog + msgTextLen buf a + msgDictLen buf a ≤ msgLen buf a)
      (next : Records buf (a + msgLen buf a) rest b) : Records buf a (a :: rest) b

/-- Only the bytes of a record matter to its readers. -/
theorem record_congr {buf buf' : Nat → UInt8} {p : Nat}
    (covered : sizeofPrintkLog + msgTextLen buf p + msgDictLen buf p ≤ msgLen buf p)
    (same : ∀ i, p ≤ i → i < p + msgLen buf p → buf' i = buf i) :
    msgLen buf' p = msgLen buf p ∧ msgTextLen buf' p = msgTextLen buf p ∧
      msgDictLen buf' p = msgDictLen buf p ∧ readRecord buf' p = readRecord buf p := by
  rw [sizeofPrintkLog] at covered
  have header (i : Nat) (lt : i < 16) : buf' (p + i) = buf (p + i) := same _ (by omega) (by omega)
  have len : msgLen buf' p = msgLen buf p := get16_congr (header 8 (by omega)) (header 9 (by omega))
  have text : msgTextLen buf' p = msgTextLen buf p :=
    get16_congr (header 10 (by omega)) (header 11 (by omega))
  have dict : msgDictLen buf' p = msgDictLen buf p :=
    get16_congr (header 12 (by omega)) (header 13 (by omega))
  refine ⟨len, text, dict, ?_⟩
  have block (k n : Nat) (le : k + n ≤ msgLen buf p) : read buf' (p + k) n = read buf (p + k) n :=
    read_congr fun i low high => same i (by omega) (by omega)
  simp only [readRecord, logDict, logText, sizeofPrintkLog, text, dict, header 14 (by omega),
    header 15 (by omega), Nat.add_assoc p 16]
  rw [block 16 _ (by omega), block (16 + msgTextLen buf p) _ (by omega),
    show read buf' p 8 = read buf p 8 from block 0 8 (by omega)]

namespace Records
variable {buf buf' : Nat → UInt8} {a b c : Nat} {l l' : List Nat}

theorem nil_inv (chain : Records buf a [] b) : a = b := by
  cases chain
  rfl

theorem cons_inv {p : Nat} (chain : Records buf a (p :: l) b) :
    p = a ∧ sizeofPrintkLog + msgTextLen buf a + msgDictLen buf a ≤ msgLen buf a ∧
      Records buf (a + msgLen buf a) l b := by
  cases chain with
  | cons covered next => exact ⟨rfl, covered, next⟩

theorem le (chain : Records buf a l b) : a ≤ b := by
  induction chain with
  | nil a => exact Nat.le_refl a
  | cons covered next ih => omega

theorem inside {p : Nat} (chain : Records buf a l b) (mem : p ∈ l) :
    (a ≤ p ∧ p + msgLen buf p ≤ b) ∧
      sizeofPrintkLog + msgTextLen buf p + msgDictLen buf p ≤ msgLen buf p := by
  induction chain with
  | nil a => cases mem
  | cons covered next ih =>
    rcases mem_cons.mp mem with rfl | later
    · exact ⟨⟨Nat.le_refl p, next.le⟩, covered⟩
    · have := ih later
      omega

section
variable (chain : Records buf a l b)
include chain

theorem pairwise : l.Pairwise fun p q => p + msgLen buf p ≤ q := by
  induction chain with
  | nil a => exact List.Pairwise.nil
  | cons covered next ih =>
    exact List.Pairwise.cons (fun q mem => (next.inside mem).1.1) ih

theorem append (more : Records buf b l' c) : Records buf a (l ++ l') c := by
  induction chain with
  | nil a => exact more
  | cons covered next ih => exact .cons covered (ih more)

/-- Any place in a chain is the end of one and the start of another. -/
theorem split (k : Nat) : ∃ mid, Records buf a (l.take k) mid ∧ Records buf mid (l.drop k) b := by
  induction chain generalizing k with
  | nil a => exact ⟨a, by simpa using Records.nil a, by simpa using Records.nil a⟩
  | @cons a b rest covered next ih =>
    cases k with
    | zero => exact ⟨a, .nil a, .cons covered next⟩
    | succ k =>
      obtain ⟨mid, before, later⟩ := ih k
      exact ⟨mid, .cons covered before, later⟩

theorem lt_of_ne_nil (some : l ≠ []) : a < b := by
  cases chain with
  | nil => exact absurd rfl some
  | cons covered next =>
    have := next.le
    rw [sizeofPrintkLog] at covered
    omega

theorem congr (same : ∀ i, a ≤ i → i < b → buf' i = buf i) : Records buf' a l b := by
  induction chain with
  | nil a => exact .nil a
  | @cons a b rest covered next ih =>
    have le := next.le
    obtain ⟨len, text, dict, _⟩ := record_congr covered fun i low high => same i low (by omega)
    refine .cons (by rw [len, text, dict]; exact covered) ?_
    rw [len]
    exact ih fun i low high => same i (by omega) high

theorem map_readRecord (same : ∀ i, a ≤ i → i < b → buf' i = buf i) :
    l.map (readRecord buf') = l.map (readRecord buf) := by
  apply map_congr_left
  intro p mem
  obtain ⟨⟨low, high⟩, covered⟩ := chain.inside mem
  exact (record_congr covered fun i lo hi => same i (by omega) (by omega)).2.2.2

theorem walk_eq (small : b < 2 ^ 32) (n : Nat) :
    walk buf (l.length + n) a = (l ++ (walk buf n b).1, (walk buf n b).2) := by
  induction chain with
  | nil a => simp
  | @cons a b rest covered next ih =>
    have le := next.le
    rw [sizeofPrintkLog] at covered
    have some : msgLen buf a ≠ 0 := by omega
    have step : logNext buf a = a + msgLen buf a := by
      rw [logNext, if_neg some, Nat.mod_eq_of_lt (by omega)]
    have here : logFromIdx buf a = a := if_neg some
    rw [length_cons, Nat.add_right_comm, walk, step, here, ih small]
    rfl

end

end Records

inductive Layout (logBufLen : Nat) (s : LogState) : List Nat → Prop
  | straight {l : List Nat} (chain : Records s.logBuf s.logFirstIdx l s.logNextIdx)
      (room : s.logNextIdx + sizeofPrintkLog ≤ logBufLen) : Layout logBufLen s l
  | wrapped {high low : List Nat} {mark : Nat}
      (upper : Records s.logBuf s.logFirstIdx high mark)
      (marked : msgLen s.logBuf mark = 0) (room : mark + sizeofPrintkLog ≤ logBufLen)
      (lower : Records s.logBuf 0 low s.logNextIdx) (some : low ≠ [])
      (gap : s.logNextIdx + sizeofPrintkLog ≤ s.logFirstIdx) : Layout logBufLen s (high ++ low)

namespace Layout
variable {logBufLen : Nat} {s : LogState} {l : List Nat} {p : Nat}

section
variable (layout : Layout logBufLen s l)
include layout

/-- A walk from the first index visits the records and ends at the next index. -/
theorem walk_eq (small : logBufLen ≤ 2 ^ 31) :
    walk s.logBuf l.length s.logFirstIdx = (l, s.logNextIdx) := by
  cases layout with
  | straight chain room =>
    have whole := chain.walk_eq (by omega) 0
    rw [Nat.add_zero] at whole
    rw [whole]
    simp [walk]
  | @wrapped high low mark upper marked room lower some gap =>
    have first := upper.le
    rw [length_append, upper.walk_eq (by omega)]
    obtain ⟨p, rest, rfl⟩ := exists_cons_of_ne_nil some
    obtain ⟨rfl, covered, next⟩ := lower.cons_inv
    have step : logNext s.logBuf mark = msgLen s.logBuf 0 := if_pos marked
    have here : logFromIdx s.logBuf mark = 0 := if_pos marked
    rw [Nat.zero_add] at next
    have whole := next.walk_eq (by omega) 0
    rw [Nat.add_zero] at whole
    rw [length_cons, walk, step, here, whole]
    simp [walk]

/-- The walk is not at the next index before its end. -/
theorem walk_ne (small : logBufLen ≤ 2 ^ 31) {k : Nat}
    (lt : k < l.length) : (walk s.logBuf k s.logFirstIdx).2 ≠ s.logNextIdx := by
  have along {a b : Nat} {chain : List Nat} (records : Records s.logBuf a chain b)
      (high : b < 2 ^ 32) {j : Nat} (le : j ≤ chain.length) :
      ∃ mid, (walk s.logBuf j a).2 = mid ∧ a ≤ mid ∧ Records s.logBuf mid (chain.drop j) b := by
    obtain ⟨mid, before, later⟩ := records.split j
    have steps := before.walk_eq (Nat.lt_of_le_of_lt later.le high) 0
    rw [length_take, Nat.min_eq_left le, Nat.add_zero] at steps
    exact ⟨mid, by rw [steps]; rfl, before.le, later⟩
  cases layout with
  | straight chain room =>
    obtain ⟨mid, there, _, later⟩ := along chain (by omega) (Nat.le_of_lt lt)
    rw [there]
    refine Nat.ne_of_lt (later.lt_of_ne_nil fun none => ?_)
    rw [drop_eq_nil_iff] at none
    omega
  | @wrapped high low mark upper marked room lower some gap =>
    rw [sizeofPrintkLog] at room gap
    have first := upper.le
    by_cases inHigh : k ≤ high.length
    · obtain ⟨mid, there, above, _⟩ := along upper (by omega) inHigh
      omega
    obtain ⟨j, rfl⟩ := Nat.exists_eq_add_of_lt (Nat.lt_of_not_le inHigh)
    rw [Nat.add_assoc, upper.walk_eq (by omega)]
    obtain ⟨p, rest, rfl⟩ := exists_cons_of_ne_nil some
    obtain ⟨rfl, covered, next⟩ := lower.cons_inv
    have step : logNext s.logBuf mark = msgLen s.logBuf 0 := if_pos marked
    rw [Nat.zero_add] at next
    rw [length_append, length_cons] at lt
    obtain ⟨mid, there, _, later⟩ := along next (by omega) (j := j) (by omega)
    rw [walk, step]
    simp only [there]
    refine Nat.ne_of_lt (later.lt_of_ne_nil fun none => ?_)
    rw [drop_eq_nil_iff] at none
    omega

theorem inside (mem : p ∈ l) : p + msgLen s.logBuf p ≤ logBufLen ∧
    sizeofPrintkLog + msgTextLen s.logBuf p + msgDictLen s.logBuf p ≤ msgLen s.logBuf p := by
  cases layout with
  | straight chain room =>
    have := chain.inside mem
    omega
  | wrapped upper marked room lower some gap =>
    have first := upper.le
    rcases mem_append.mp mem with there | there
    · have := upper.inside there
      omega
    · have := lower.inside there
      omega

theorem disjoint : l.Pairwise fun p q => p + msgLen s.logBuf p ≤ q ∨ q + msgLen s.logBuf q ≤ p := by
  cases layout with
  | straight chain room => exact chain.pairwise.imp .inl
  | wrapped upper marked room lower some gap =>
    refine pairwise_append.mpr ⟨upper.pairwise.imp .inl, lower.pairwise.imp .inl, ?_⟩
    intro p inHigh q inLow
    have := upper.inside inHigh
    have := lower.inside inLow
    omega

end

theorem empty (layout : Layout logBufLen s []) :
    s.logFirstIdx = s.logNextIdx ∧ s.logNextIdx + sizeofPrintkLog ≤ logBufLen := by
  generalize shape : ([] : List Nat) = l at layout
  cases layout with
  | straight chain room =>
    subst shape
    exact ⟨chain.nil_inv, room⟩
  | wrapped upper marked room lower some gap =>
    exact absurd (append_eq_nil_iff.mp shape.symm).2 some

theorem drop (layout : Layout logBufLen s (p :: l)) (small : logBufLen ≤ 2 ^ 31) (n : Nat) :
    Layout logBufLen
      { s with logFirstIdx := logNext s.logBuf s.logFirstIdx, logFirstSeq := n } l := by
  generalize shape : p :: l = whole at layout
  have advance {a b : Nat} {rest : List Nat} (next : Records s.logBuf (a + msgLen s.logBuf a) rest b)
      (covered : sizeofPrintkLog + msgTextLen s.logBuf a + msgDictLen s.logBuf a ≤ msgLen s.logBuf a)
      (high : b < 2 ^ 32) : logNext s.logBuf a = a + msgLen s.logBuf a := by
    have le := next.le
    rw [sizeofPrintkLog] at covered
    rw [logNext, if_neg (by omega), Nat.mod_eq_of_lt (by omega)]
  cases layout with
  | straight chain room =>
    subst shape
    have fits := room
    obtain ⟨_, covered, next⟩ := chain.cons_inv
    refine .straight ?_ room
    rw [advance next covered (by omega)]
    exact next
  | @wrapped high low mark upper marked room lower some gap =>
    have fits := room
    cases high with
    | nil =>
      -- The first index is at the mark, so the record is the one at the start.
      have here := upper.nil_inv
      obtain ⟨q, rest, rfl⟩ := exists_cons_of_ne_nil some
      obtain ⟨rfl, covered, next⟩ := lower.cons_inv
      obtain ⟨_, rfl⟩ := shape
      refine .straight ?_ (by show s.logNextIdx + _ ≤ _; omega)
      rw [here, show logNext s.logBuf mark = msgLen s.logBuf 0 from if_pos marked]
      rw [Nat.zero_add] at next
      exact next
    | cons q rest =>
      obtain ⟨rfl, covered, next⟩ := upper.cons_inv
      obtain ⟨_, rfl⟩ := shape
      have step := advance next covered (by omega)
      refine .wrapped ?_ marked room lower some ?_
      · rw [step]
        exact next
      · show s.logNextIdx + sizeofPrintkLog ≤ logNext s.logBuf s.logFirstIdx
        omega

end Layout

end Linux318.Source.Printk
