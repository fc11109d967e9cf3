import Linux318.Lib.Run
import Linux318.Source.Printk.LogStore

/-!
# printk: the log buffer

Source: kernel/printk/printk.c. In every run of `log_store`, a reader that starts at the first index
finds the last records that were stored, in order. A message that is truncated, or larger than the
16 bits of its length, has to fit the size that is computed for it.
-/
namespace Linux318.Guarantees
open Lib Source.Printk

/-- What a reader of the buffer relies on, for the records stored so far. -/
structure FaithfulLog (logBufLen : Nat) (s : LogState) (history : List LogRecord) : Prop where
  /-- The walk over the records of the buffer ends at the next index, and not before. -/
  ends : (walk s.logBuf (s.logNextSeq - s.logFirstSeq) s.logFirstIdx).2 = s.logNextIdx
  notBefore {k : Nat} : k < s.logNextSeq - s.logFirstSeq →
    (walk s.logBuf k s.logFirstIdx).2 ≠ s.logNextIdx
  inside {p : Nat} : p ∈ (walk s.logBuf (s.logNextSeq - s.logFirstSeq) s.logFirstIdx).1 →
    p + msgLen s.logBuf p ≤ logBufLen
  covered {p : Nat} : p ∈ (walk s.logBuf (s.logNextSeq - s.logFirstSeq) s.logFirstIdx).1 →
    sizeofPrintkLog + msgTextLen s.logBuf p + msgDictLen s.logBuf p ≤ msgLen s.logBuf p
  disjoint : (walk s.logBuf (s.logNextSeq - s.logFirstSeq) s.logFirstIdx).1.Pairwise fun p q =>
    p + msgLen s.logBuf p ≤ q ∨ q + msgLen s.logBuf q ≤ p
  stored : history.length = s.logNextSeq
  content : (walk s.logBuf (s.logNextSeq - s.logFirstSeq) s.logFirstIdx).1.map
    (readRecord s.logBuf) = history.drop s.logFirstSeq

/-- The log and all records that were ever stored in it. -/
def storeStep (logBufLen : Nat) (t : LogState × List LogRecord) (m : LogMsg) :
    LogState × List LogRecord :=
  (logStore logBufLen t.1 m, t.2 ++ [storedRecord m (usedSizes logBufLen t.1 m)])

/-- A message that has room in the empty buffer must have a size below 2^16. Any other one is
truncated, and its size is then computed without the prefix: that has to fit into the padding, or
as much of the text has to be clamped. -/
def StoreFits (logBufLen : Nat) (t : LogState × List LogRecord) (m : LogMsg) : Prop :=
  let size := (sizeofPrintkLog + m.text.length + m.tbuf.length + m.dict.length + 3) / 4 * 4
  let text := min m.text.length (logBufLen / 4)
  t.1.logNextSeq + 1 < 2 ^ 64 ∧
    if size + sizeofPrintkLog ≤ max (logBufLen - t.1.logNextIdx) t.1.logNextIdx then size < 2 ^ 16
    else m.tbuf.length + min text (logLineMax - m.tbuf.length) ≤ text + (4 - (27 + text) % 4) % 4

instance (logBufLen : Nat) (t : LogState × List LogRecord) (m : LogMsg) :
    Decidable (StoreFits logBufLen t m) := inferInstanceAs (Decidable (_ ∧ ite _ _ _))

variable {logBufLen : Nat}

/-- The invariant says what a reader sees. -/
theorem LogOk.faithful (small : logBufLen ≤ 2 ^ 31) {s : LogState} {l : List Nat}
    {history : List LogRecord} (ok : LogOk logBufLen s l history) :
    FaithfulLog logBufLen s history := by
  have count : s.logNextSeq - s.logFirstSeq = l.length := by
    have := ok.ordered
    omega
  have walked := ok.layout.walk_eq small
  constructor
  case ends => rw [count, walked]
  case notBefore =>
    intro k lt
    rw [count] at lt
    exact ok.layout.walk_ne small lt
  case inside =>
    intro p mem
    rw [count, walked] at mem
    exact (ok.layout.inside mem).1
  case covered =>
    intro p mem
    rw [count, walked] at mem
    exact (ok.layout.inside mem).2
  case disjoint =>
    rw [count, walked]
    exact ok.layout.disjoint
  case stored => exact ok.stored
  case content =>
    rw [count, walked]
    exact ok.content

theorem plainSizes_size (m : LogMsg) : (plainSizes m).size =
    (sizeofPrintkLog + m.text.length + m.tbuf.length + m.dict.length + 3) / 4 * 4 := by
  have text := m.text_le
  have tbuf := m.tbuf_le
  have dict := m.dict_lt
  simp only [plainSizes, msgUsedSize, sizeofPrintkLog, logAlign, logLineMax] at *
  omega

/-- A store keeps the ring. -/
theorem storeStep_ok (large : 4096 ≤ logBufLen) (small : logBufLen ≤ 2 ^ 31)
    (t : LogState × List LogRecord) (m : LogMsg) (ok : ∃ l, LogOk logBufLen t.1 l t.2)
    (fits : StoreFits logBufLen t m) :
    ∃ l, LogOk logBufLen (storeStep logBufLen t m).1 l (storeStep logBufLen t m).2 := by
  obtain ⟨l, ok⟩ := ok
  obtain ⟨count, fits⟩ := fits
  refine logStore_ok large small ok ?_ count
  rw [← plainSizes_size m] at fits
  simp only [usedSizes, logMakeFreeSpace_iff small ok]
  split_ifs at fits ⊢
  · exact plainSizes_fits m fits
  · exact truncateMsg_fits logBufLen m fits

theorem emptyLog_ok (large : 4096 ≤ logBufLen) : LogOk logBufLen emptyLog [] [] where
  layout := .straight (.nil 0) (Nat.le_trans (by decide) large)
  ordered := rfl
  stored := rfl
  content := rfl

/-- In every run whose messages fit, the buffer is a faithful queue. -/
theorem logRun_faithful (logBufLen : Nat) (large : 4096 ≤ logBufLen) (small : logBufLen ≤ 2 ^ 31)
    (messages : List LogMsg)
    (meets : StepsMeet (storeStep logBufLen) (StoreFits logBufLen) (emptyLog, []) messages) :
    FaithfulLog logBufLen (runFrom (storeStep logBufLen) (emptyLog, []) messages).1
      (runFrom (storeStep logBufLen) (emptyLog, []) messages).2 := by
  obtain ⟨l, ok⟩ := runFrom_invariant (storeStep logBufLen) (storeStep_ok large small) messages
    (emptyLog, []) ⟨[], emptyLog_ok large⟩ meets
  exact LogOk.faithful small ok

def shortLine : LogMsg where
  facility := 0
  level := 6
  flags := 2
  tsNsec := 5000
  tbuf := [32, 40, 48, 41]
  text := [104, 105]
  dict := [97, 61, 98]
  tbuf_le := by decide
  text_le := by decide
  dict_lt := by decide

theorem logRun_faithful_twoLines :
    FaithfulLog 4096 (runFrom (storeStep 4096) (emptyLog, []) [shortLine, shortLine]).1
      (runFrom (storeStep 4096) (emptyLog, []) [shortLine, shortLine]).2 :=
  logRun_faithful 4096 (by decide) (by decide) [shortLine, shortLine] (by decide +kernel)

/-- A line of the greatest length, with a prefix of ten bytes. -/
def longLine : LogMsg where
  facility := 0
  level := 6
  flags := 2
  tsNsec := 5000
  tbuf := List.replicate 10 32
  text := List.replicate 4064 65
  dict := []
  tbuf_le := by simp
  text_le := by rw [List.length_replicate]; decide
  dict_lt := by decide

/-- A truncated line is given a size without its prefix, so its text goes past its end. -/
theorem logStore_truncated_uncovered : msgLen (logStore 4096 emptyLog longLine).logBuf 0 = 1052 ∧
      msgTextLen (logStore 4096 emptyLog longLine).logBuf 0 = 1045 ∧
      ¬ sizeofPrintkLog + msgTextLen (logStore 4096 emptyLog longLine).logBuf 0 +
        msgDictLen (logStore 4096 emptyLog longLine).logBuf 0 ≤
        msgLen (logStore 4096 emptyLog longLine).logBuf 0 := by
  decide +kernel

end Linux318.Guarantees
