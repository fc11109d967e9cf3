import Linux318.Source.Printk.LogBuf

/-!
Storing a record. Space is made by dropping the oldest records; the new record is
filled in behind the last one or at the start of the buffer.
-/
namespace Linux318.Source.Printk
open List Lib.Bytes

variable {m : LogMsg} {z : MsgSizes} {logBufLen msgSize : Nat} {s : LogState} {l : List Nat}
  {history : List LogRecord} {empty : Bool}

/-- The prefix and the text, clamped, and the mark of a truncated one. -/
def recordText (m : LogMsg) (z : MsgSizes) : List UInt8 :=
  m.tbuf ++ m.text.take (clampText m.tbuf.length z.textLen) ++
    if z.truncMsgLen = 0 then [] else truncMsg

def storedRecord (m : LogMsg) (z : MsgSizes) : LogRecord where
  text := recordText m z
  dict := m.dict.take z.dictLen
  facility := m.facility % 256
  flags := m.flags % 32
  level := m.level % 8
  tsNsec := (List.range 8).map fun i => UInt8.ofNat (m.tsNsec / 256 ^ i)

/-- The sizes that a record is filled in with, and that they leave it covered. -/
structure Fits (m : LogMsg) (z : MsgSizes) : Prop where
  text : z.textLen ≤ m.text.length
  trunc : z.truncMsgLen = 0 ∨ z.truncMsgLen = truncMsg.length
  dict : z.dictLen ≤ m.dict.length
  pad : z.padLen < logAlign
  covered : sizeofPrintkLog + (recordText m z).length + z.dictLen ≤ z.size
  size : z.size < 2 ^ 16

theorem clampText_le {tlen : Nat} (textLen : Nat) (le : tlen ≤ 49) :
    clampText tlen textLen ≤ textLen ∧ clampText tlen textLen + tlen ≤ logLineMax := by
  unfold clampText
  have : logLineMax = 4064 := rfl
  split <;> omega

theorem length_recordText (text : z.textLen ≤ m.text.length)
    (trunc : z.truncMsgLen = 0 ∨ z.truncMsgLen = truncMsg.length) :
    (recordText m z).length = clampText m.tbuf.length z.textLen + m.tbuf.length + z.truncMsgLen := by
  have le := (clampText_le z.textLen m.tbuf_le).1
  rcases trunc with none | some
  · simp only [recordText, none, if_pos, length_append, length_take, length_nil]
    omega
  rw [recordText, if_neg (by rw [some]; decide)]
  simp only [length_append, length_take]
  omega

theorem msgUsedSize_spec (textLen dictLen : Nat) :
    (msgUsedSize textLen dictLen).1 < 4 ∧ (msgUsedSize textLen dictLen).2 =
      16 + textLen % 2 ^ 16 + dictLen % 2 ^ 16 + (msgUsedSize textLen dictLen).1 :=
  ⟨Nat.mod_lt _ (by decide), rfl⟩

theorem plainSizes_fits (m : LogMsg) (small : (plainSizes m).size < 2 ^ 16) :
    Fits m (plainSizes m) := by
  have le := (clampText_le m.text.length m.tbuf_le).1
  have tbuf := m.tbuf_le
  have text := m.text_le
  have dict := m.dict_lt
  have max : logLineMax = 4064 := rfl
  obtain ⟨pad, size⟩ := msgUsedSize_spec (m.text.length + m.tbuf.length) m.dict.length
  refine ⟨Nat.le_refl _, .inl rfl, Nat.le_refl _, pad, ?_, small⟩
  rw [length_recordText (Nat.le_refl _) (.inl rfl)]
  simp only [plainSizes, sizeofPrintkLog]
  omega

/-- The prefix of a truncated message fits its padding, or as much of the text is clamped. -/
theorem truncateMsg_fits (logBufLen : Nat) (m : LogMsg)
    (room : m.tbuf.length + min (min m.text.length (logBufLen / 4)) (logLineMax - m.tbuf.length) ≤
      min m.text.length (logBufLen / 4) + (4 - (27 + min m.text.length (logBufLen / 4)) % 4) % 4) :
    Fits m (truncateMsg logBufLen m) := by
  have text : min m.text.length (logBufLen / 4) ≤ 4064 :=
    Nat.le_trans (Nat.min_le_left _ _) m.text_le
  have covered : sizeofPrintkLog + (recordText m (truncateMsg logBufLen m)).length ≤
      (truncateMsg logBufLen m).size := by
    have clamp (n : Nat) : clampText m.tbuf.length n = min n (logLineMax - m.tbuf.length) := by
      unfold clampText
      split <;> omega
    rw [length_recordText (Nat.min_le_left _ _) (.inr rfl), clamp]
    simp only [truncateMsg, msgUsedSize, sizeofPrintkLog, logAlign, maxLogTakePart, truncMsg,
      length_cons, length_nil]
    generalize min m.text.length (logBufLen / 4) = n at *
    omega
  obtain ⟨pad, size⟩ := msgUsedSize_spec
    (min m.text.length (logBufLen / maxLogTakePart) + truncMsg.length) 0
  refine ⟨Nat.min_le_left _ _, .inr rfl, Nat.zero_le _, pad, covered, ?_⟩
  simp only [truncateMsg, maxLogTakePart, truncMsg, length_cons, length_nil] at *
  generalize min m.text.length (logBufLen / 4) = n at *
  omega

/-- The memory once the prefix and the text are copied and their length is set. -/
def copyLine (buf : Nat → UInt8) (msg : Nat) (tbuf body : List UInt8) : Nat → UInt8 :=
  put16 (write (write buf (msg + 16) tbuf) (msg + 16 + tbuf.length) body) (msg + 10)
    (body.length + tbuf.length)

theorem copyLine_spec (buf : Nat → UInt8) (msg : Nat) (tbuf body : List UInt8)
    (small : body.length + tbuf.length < 2 ^ 16) :
    SameOutside (msg + 10) (msg + 16 + (body.length + tbuf.length)) buf
        (copyLine buf msg tbuf body) ∧
      msgTextLen (copyLine buf msg tbuf body) msg = body.length + tbuf.length ∧
      read (copyLine buf msg tbuf body) (msg + 16) (body.length + tbuf.length) = tbuf ++ body := by
  unfold copyLine
  refine ⟨?_, ?_, ?_⟩
  · exact (((SameOutside.refl _ _ _).write (by omega) (by omega)).write (by omega)
      (by omega)).put16 _ (by omega) (by omega)
  · rw [msgTextLen, get16_put16]
    omega
  · rw [read_put16_outside _ (by omega), Nat.add_comm body.length, read_append,
      read_write_outside _ (by omega), read_write, read_write]

theorem fillText_spec (buf : Nat → UInt8) (msg : Nat) (text : z.textLen ≤ m.text.length)
    (trunc : z.truncMsgLen = 0 ∨ z.truncMsgLen = truncMsg.length) :
    SameOutside (msg + 10) (msg + 16 + (recordText m z).length) buf (fillText buf msg m z) ∧
      msgTextLen (fillText buf msg m z) msg = (recordText m z).length ∧
      read (fillText buf msg m z) (msg + 16) (recordText m z).length = recordText m z := by
  obtain ⟨le, line⟩ := clampText_le z.textLen m.tbuf_le
  have taken : (m.text.take (clampText m.tbuf.length z.textLen)).length =
      clampText m.tbuf.length z.textLen := by
    rw [length_take]
    omega
  have max : logLineMax = 4064 := rfl
  have mark : truncMsg.length = 11 := rfl
  obtain ⟨outside, len, content⟩ := copyLine_spec buf msg m.tbuf
    (m.text.take (clampText m.tbuf.length z.textLen)) (by omega)
  have length := length_recordText text trunc
  rcases trunc with zero | some
  · have filled : fillText buf msg m z =
        copyLine buf msg m.tbuf (m.text.take (clampText m.tbuf.length z.textLen)) := by
      simp only [fillText, copyLine, zero, if_pos, taken, logText, sizeofPrintkLog]
    rw [zero] at length
    rw [filled, length]
    rw [taken] at outside len content
    refine ⟨outside, len, content.trans ?_⟩
    rw [recordText, if_pos zero, append_nil]
  generalize line : copyLine buf msg m.tbuf (m.text.take (clampText m.tbuf.length z.textLen)) =
    buf' at *
  have filled : fillText buf msg m z =
      put16 (write buf' (msg + 16 + (clampText m.tbuf.length z.textLen + m.tbuf.length)) truncMsg)
        (msg + 10) (clampText m.tbuf.length z.textLen + m.tbuf.length + 11) := by
    have ne : z.truncMsgLen ≠ 0 := by omega
    have old : msgTextLen (write buf' (msg + 16 +
        (clampText m.tbuf.length z.textLen + m.tbuf.length)) truncMsg) msg =
        clampText m.tbuf.length z.textLen + m.tbuf.length := by
      rw [msgTextLen, get16_write_outside _ (by omega)]
      rw [taken] at len
      exact len
    have whole : fillText buf msg m z = put16 (write buf' (msg + 16 +
        (clampText m.tbuf.length z.textLen + m.tbuf.length)) truncMsg) (msg + 10)
        (msgTextLen (write buf' (msg + 16 +
          (clampText m.tbuf.length z.textLen + m.tbuf.length)) truncMsg) msg + z.truncMsgLen) := by
      rw [← line]
      simp only [fillText, copyLine, if_neg ne, taken, logText, sizeofPrintkLog]
    rw [whole, old, some, mark]
  rw [some, mark] at length
  rw [taken] at outside len content
  rw [filled, length]
  refine ⟨?_, ?_, ?_⟩
  · have wider : SameOutside (msg + 10) (msg + 16 +
        (clampText m.tbuf.length z.textLen + m.tbuf.length + 11)) buf buf' :=
      fun i out => outside i (by omega)
    exact (wider.write (by omega) (by omega)).put16 _ (by omega) (by omega)
  · rw [msgTextLen, get16_put16]
    omega
  · rw [read_put16_outside _ (by omega), read_append, read_write_outside _ (by omega), content]
    rw [← mark, read_write, recordText, if_neg (by omega)]

/-- The dictionary and the fields of the header, but for the two lengths around it. -/
def fillHeader (buf : Nat → UInt8) (msg dictAt : Nat) (m : LogMsg) (dictLen : Nat) : Nat → UInt8 :=
  let buf := write buf dictAt (m.dict.take dictLen)
  let buf := put16 buf (msg + 12) dictLen
  let buf := write buf (msg + 14) [UInt8.ofNat m.facility]
  let buf := write buf (msg + 15) [UInt8.ofNat (m.flags % 32 + 32 * (m.level % 8))]
  write buf msg ((List.range 8).map fun i => UInt8.ofNat (m.tsNsec / 256 ^ i))

structure HeaderFilled (buf buf' : Nat → UInt8) (msg textLen dictLen : Nat) (m : LogMsg) :
    Prop where
  outside : SameOutside msg (msg + 16 + textLen + dictLen) buf buf'
  textLength : msgTextLen buf' msg = msgTextLen buf msg
  text : read buf' (msg + 16) textLen = read buf (msg + 16) textLen
  dictLength : msgDictLen buf' msg = dictLen
  dict : read buf' (msg + 16 + textLen) dictLen = m.dict.take dictLen
  facility : buf' (msg + 14) = UInt8.ofNat m.facility
  flags : buf' (msg + 15) = UInt8.ofNat (m.flags % 32 + 32 * (m.level % 8))
  stamp : read buf' msg 8 = (List.range 8).map fun i => UInt8.ofNat (m.tsNsec / 256 ^ i)

theorem fillHeader_spec (buf : Nat → UInt8) (msg textLen : Nat) (m : LogMsg) {dictLen : Nat}
    (le : dictLen ≤ m.dict.length) :
    HeaderFilled buf (fillHeader buf msg (msg + 16 + textLen) m dictLen) msg textLen dictLen m := by
  have lt := m.dict_lt
  have taken : (m.dict.take dictLen).length = dictLen := by
    rw [length_take]
    omega
  have eight : ((List.range 8).map fun i => UInt8.ofNat (m.tsNsec / 256 ^ i)).length = 8 := by simp
  have one (x : UInt8) : [x].length = 1 := rfl
  simp only [fillHeader]
  generalize dictEq : m.dict.take dictLen = dict at taken
  generalize stampEq : ((List.range 8).map fun i => UInt8.ofNat (m.tsNsec / 256 ^ i)) = stamp
    at eight
  constructor
  case outside =>
    refine (((((SameOutside.refl _ _ _).write ?_ ?_).put16 _ ?_ ?_).write ?_ ?_).write ?_ ?_).write
      ?_ ?_
    all_goals try rw [one]
    all_goals omega
  case textLength =>
    simp (disch := (try rw [one]); omega) only [msgTextLen, get16_write_outside,
      get16_put16_outside]
  case text =>
    simp (disch := (try rw [one]); omega) only [read_write_outside, read_put16_outside]
  case dictLength =>
    simp (disch := (try rw [one]); omega) only [msgDictLen, get16_write_outside, get16_put16]
    omega
  case dict =>
    rw [dictEq, read_write_outside _ (by omega), read_write_outside _ (by rw [one]; omega),
      read_write_outside _ (by rw [one]; omega), read_put16_outside _ (by omega)]
    rw [← taken]
    exact read_write _ _ _
  case facility =>
    rw [write_outside _ (by omega), write_outside _ (by omega)]
    exact write_inside _ (msg + 14) (k := 0) (by simp)
  case flags =>
    rw [write_outside _ (by omega)]
    exact write_inside _ (msg + 15) (k := 0) (by simp)
  case stamp =>
    rw [stampEq]
    have whole := read_write (write (write (put16 (write buf (msg + 16 + textLen) dict) (msg + 12)
      dictLen) (msg + 14) [UInt8.ofNat m.facility]) (msg + 15)
      [UInt8.ofNat (m.flags % 32 + 32 * (m.level % 8))]) msg stamp
    rw [eight] at whole
    exact whole

theorem fillRecord_spec (buf : Nat → UInt8) (msg : Nat) (fits : Fits m z) :
    SameOutside msg (msg + z.size + sizeofPrintkLog) buf (fillRecord buf msg m z) ∧
      msgLen (fillRecord buf msg m z) msg = z.size ∧
      msgTextLen (fillRecord buf msg m z) msg = (recordText m z).length ∧
      msgDictLen (fillRecord buf msg m z) msg = z.dictLen ∧
      readRecord (fillRecord buf msg m z) msg = storedRecord m z := by
  obtain ⟨outside, len, content⟩ := fillText_spec buf msg fits.text fits.trunc
  have covered := fits.covered
  have pad := fits.pad
  have size := fits.size
  rw [sizeofPrintkLog] at covered ⊢
  rw [logAlign] at pad
  have padded : (List.replicate z.padLen (0 : UInt8)).length = z.padLen := length_replicate
  have header := fillHeader_spec (fillText buf msg m z) msg (recordText m z).length m fits.dict
  generalize headEq : fillHeader (fillText buf msg m z) msg (msg + 16 + (recordText m z).length) m
    z.dictLen = headMem at header
  have filled : fillRecord buf msg m z = put16 (write headMem
      (msg + 16 + (recordText m z).length + z.dictLen) (List.replicate z.padLen 0)) (msg + 8)
      z.size := by
    have textAt : logDict (fillText buf msg m z) msg = msg + 16 + (recordText m z).length := by
      rw [logDict, len, sizeofPrintkLog]
    have headAt : logDict headMem msg = msg + 16 + (recordText m z).length := by
      rw [logDict, header.textLength, len, sizeofPrintkLog]
    rw [← headAt, ← headEq, ← textAt]
    rfl
  have textLen : msgTextLen (fillRecord buf msg m z) msg = (recordText m z).length := by
    rw [filled, msgTextLen, get16_put16_outside _ (by omega), get16_write_outside _ (by omega)]
    exact header.textLength.trans len
  have dictLen : msgDictLen (fillRecord buf msg m z) msg = z.dictLen := by
    rw [filled, msgDictLen, get16_put16_outside _ (by omega), get16_write_outside _ (by omega)]
    exact header.dictLength
  refine ⟨?_, ?_, textLen, dictLen, ?_⟩
  · rw [filled]
    have first : SameOutside msg (msg + z.size + 16) buf headMem := fun i out =>
      (header.outside i (by omega)).trans (outside i (by omega))
    exact (first.write (by omega) (by omega)).put16 _ (by omega) (by omega)
  · rw [filled, msgLen, get16_put16]
    omega
  have byte (k : Nat) (low : k = 14 ∨ k = 15) :
      fillRecord buf msg m z (msg + k) = headMem (msg + k) := by
    rw [filled, put16_outside _ (by omega), write_outside _ (by omega)]
  simp only [readRecord, logDict, logText, textLen, dictLen, sizeofPrintkLog,
    byte 14 (.inl rfl), byte 15 (.inr rfl), header.facility, header.flags]
  have flags : (UInt8.ofNat (m.flags % 32 + 32 * (m.level % 8))).toNat =
      m.flags % 32 + 32 * (m.level % 8) := by
    rw [UInt8.toNat_ofNat']
    omega
  rw [filled, read_put16_outside _ (by omega), read_write_outside _ (by omega),
    read_put16_outside _ (by omega), read_write_outside _ (by omega),
    read_put16_outside _ (by omega), read_write_outside _ (by omega), header.text, header.dict,
      header.stamp]
  congr 1
  · omega
  · omega

/-- The records of the buffer are the last ones that were stored. -/
structure LogOk (logBufLen : Nat) (s : LogState) (l : List Nat) (history : List LogRecord) :
    Prop where
  layout : Layout logBufLen s l
  ordered : s.logFirstSeq + l.length = s.logNextSeq
  stored : history.length = s.logNextSeq
  content : l.map (readRecord s.logBuf) = history.drop s.logFirstSeq

theorem LogOk.drop {p : Nat} (ok : LogOk logBufLen s (p :: l) history)
    (small : logBufLen ≤ 2 ^ 31) : LogOk logBufLen { s with
      logFirstIdx := logNext s.logBuf s.logFirstIdx, logFirstSeq := s.logFirstSeq + 1 } l
      history where
  layout := ok.layout.drop small _
  ordered := by
    have := ok.ordered
    rw [length_cons] at this
    show s.logFirstSeq + 1 + l.length = s.logNextSeq
    omega
  stored := ok.stored
  content := by
    have tail := congrArg List.tail ok.content
    rw [map_cons, tail_drop] at tail
    exact tail

structure SpaceMade (logBufLen msgSize : Nat) (s : LogState) (history : List LogRecord)
    (made : Bool × LogState) : Prop where
  nextSeq : made.2.logNextSeq = s.logNextSeq
  kept : ∃ l, LogOk logBufLen made.2 l history ∧ (made.1 = true →
    ∃ empty, logbufHasSpace logBufLen made.2 msgSize empty = true ∧ (empty = true → l = []))

section
variable (small : logBufLen ≤ 2 ^ 31)
include small

/-- Records in the buffer leave less space than there is without them. -/
theorem Layout.hasSpace_le (layout : Layout logBufLen s l)
    (space : logbufHasSpace logBufLen s msgSize false = true) :
    msgSize + sizeofPrintkLog ≤ max (logBufLen - s.logNextIdx) s.logNextIdx := by
  simp only [logbufHasSpace, decide_eq_true_eq, Bool.false_eq_true, or_false] at space
  cases layout with
  | straight chain room =>
    have le := chain.le
    split at space <;> omega
  | wrapped upper marked room lower some gap =>
    have first := upper.le
    split at space <;> omega

theorem makeFreeSpaceLoop_spec (msgSize : Nat) (ok : LogOk logBufLen s l history) :
    SpaceMade logBufLen msgSize s history (makeFreeSpaceLoop logBufLen msgSize l.length s) := by
  induction l generalizing s with
  | nil => exact ⟨rfl, [], ok, fun space => ⟨true, space, fun _ => rfl⟩⟩
  | cons p l ih =>
    rw [length_cons, makeFreeSpaceLoop]
    split_ifs with space
    · exact ⟨rfl, p :: l, ok, fun _ => ⟨false, space, fun h => by cases h⟩⟩
    obtain ⟨nextSeq, kept⟩ := ih (ok.drop small)
    exact ⟨nextSeq, kept⟩

theorem logMakeFreeSpace_spec (msgSize : Nat) (ok : LogOk logBufLen s l history) :
    SpaceMade logBufLen msgSize s history (logMakeFreeSpace logBufLen s msgSize) := by
  have count : s.logNextSeq - s.logFirstSeq = l.length := by
    have := ok.ordered
    omega
  rw [logMakeFreeSpace, count]
  exact makeFreeSpaceLoop_spec small msgSize ok

/-- Space can be made for a message if it has room in the empty buffer. -/
theorem makeFreeSpaceLoop_iff (layout : Layout logBufLen s l) :
    (makeFreeSpaceLoop logBufLen msgSize l.length s).1 = true ↔
      msgSize + sizeofPrintkLog ≤ max (logBufLen - s.logNextIdx) s.logNextIdx := by
  induction l generalizing s with
  | nil =>
    obtain ⟨same, room⟩ := layout.empty
    show logbufHasSpace logBufLen s msgSize true = true ↔ _
    rw [logbufHasSpace, decide_eq_true_eq, if_pos (.inr rfl)]
    omega
  | cons p l ih =>
    rw [length_cons, makeFreeSpaceLoop]
    split_ifs with space
    · have room := layout.hasSpace_le small space
      simpa using room
    · exact ih (layout.drop small _)

theorem logMakeFreeSpace_iff (ok : LogOk logBufLen s l history) :
    (logMakeFreeSpace logBufLen s msgSize).1 = true ↔
      msgSize + sizeofPrintkLog ≤ max (logBufLen - s.logNextIdx) s.logNextIdx := by
  have count : s.logNextSeq - s.logFirstSeq = l.length := by
    have := ok.ordered
    omega
  rw [logMakeFreeSpace, count]
  exact makeFreeSpaceLoop_iff small ok.layout

end

/-- A truncated message takes about a quarter of the buffer. -/
theorem truncateMsg_half (large : 4096 ≤ logBufLen) (m : LogMsg) :
    2 * ((truncateMsg logBufLen m).size + sizeofPrintkLog) ≤ logBufLen := by
  obtain ⟨pad, size⟩ := msgUsedSize_spec
    (min m.text.length (logBufLen / maxLogTakePart) + truncMsg.length) 0
  have mark : truncMsg.length = 11 := rfl
  have header : sizeofPrintkLog = 16 := rfl
  have quarter : min m.text.length (logBufLen / maxLogTakePart) ≤ logBufLen / 4 :=
    Nat.min_le_right _ _
  simp only [truncateMsg]
  generalize min m.text.length (logBufLen / maxLogTakePart) = n at *
  omega

/-- The record that was filled in is a chain of its own. -/
theorem fillRecord_records (buf : Nat → UInt8) (msg : Nat)
    (fits : Fits m z) : Records (fillRecord buf msg m z) msg [msg] (msg + z.size) := by
  obtain ⟨_, len, text, dict, _⟩ := fillRecord_spec buf msg fits
  refine .cons ?_ ?_
  · rw [len, text, dict]
    exact fits.covered
  · rw [len]
    exact .nil _

theorem appendRecord_behind (small : logBufLen ≤ 2 ^ 31) (fits : Fits m z)
    (behind : s.logNextIdx + z.size + sizeofPrintkLog ≤ logBufLen) :
    appendRecord logBufLen s m z = { s with
      logBuf := fillRecord s.logBuf s.logNextIdx m z
      logNextIdx := s.logNextIdx + z.size
      logNextSeq := (s.logNextSeq + 1) % 2 ^ 64 } := by
  have fit : (s.logNextIdx + z.size) % 2 ^ 32 = s.logNextIdx + z.size :=
    Nat.mod_eq_of_lt (by omega)
  have stay : ¬ logBufLen < (s.logNextIdx + z.size) % 2 ^ 32 + sizeofPrintkLog := by omega
  simp only [appendRecord, if_neg stay]
  rw [(fillRecord_spec s.logBuf s.logNextIdx fits).2.1, fit]

theorem appendRecord_start (fits : Fits m z) (next : s.logNextIdx ≤ 2 ^ 31)
    (past : logBufLen < s.logNextIdx + z.size + sizeofPrintkLog) :
    appendRecord logBufLen s m z = { s with
      logBuf := fillRecord (write s.logBuf s.logNextIdx (List.replicate sizeofPrintkLog 0)) 0 m z
      logNextIdx := z.size
      logNextSeq := (s.logNextSeq + 1) % 2 ^ 64 } := by
  have size := fits.size
  have leave : logBufLen < (s.logNextIdx + z.size) % 2 ^ 32 + sizeofPrintkLog := by
    rw [Nat.mod_eq_of_lt (by omega)]
    exact past
  have fit : (0 + z.size) % 2 ^ 32 = z.size := by omega
  simp only [appendRecord, if_pos leave]
  rw [(fillRecord_spec (write s.logBuf s.logNextIdx (List.replicate sizeofPrintkLog 0)) 0
    fits).2.1, fit]

/-- Where the record goes: behind the last one, or at the start after a mark. -/
theorem appendRecord_layout (small : logBufLen ≤ 2 ^ 31) (layout : Layout logBufLen s l)
    (fits : Fits m z) (space : logbufHasSpace logBufLen s z.size empty = true)
    (none : empty = true → l = []) :
    ∃ msg, Layout logBufLen (appendRecord logBufLen s m z) (l ++ [msg]) ∧
      l.map (readRecord (appendRecord logBufLen s m z).logBuf) = l.map (readRecord s.logBuf) ∧
      readRecord (appendRecord logBufLen s m z).logBuf msg = storedRecord m z := by
  have header : sizeofPrintkLog = 16 := rfl
  rw [logbufHasSpace, decide_eq_true_eq] at space
  cases layout with
  | straight chain room =>
    have le := chain.le
    have free : z.size + 16 ≤ max (logBufLen - s.logNextIdx) s.logFirstIdx := by
      split at space
      · omega
      · omega
    by_cases behind : s.logNextIdx + z.size + sizeofPrintkLog ≤ logBufLen
    · obtain ⟨out, len, _, _, content⟩ := fillRecord_spec s.logBuf s.logNextIdx fits
      have same (i : Nat) (low : s.logFirstIdx ≤ i) (high : i < s.logNextIdx) :
          fillRecord s.logBuf s.logNextIdx m z i = s.logBuf i := out i (.inl high)
      rw [appendRecord_behind small fits behind]
      exact ⟨s.logNextIdx,
        .straight ((chain.congr same).append (fillRecord_records _ _ fits)) behind,
        chain.map_readRecord same, content⟩
    -- The rest of the buffer gets a record of length zero, which readers skip.
    rw [appendRecord_start fits (by omega) (by omega)]
    have zeros : (List.replicate sizeofPrintkLog (0 : UInt8)).length = 16 := rfl
    generalize markEq : write s.logBuf s.logNextIdx (List.replicate sizeofPrintkLog 0) = markMem
    obtain ⟨out, len, _, _, content⟩ := fillRecord_spec markMem 0 fits
    have zero (k : Nat) (lt : k < 16) : markMem (s.logNextIdx + k) = 0 := by
      rw [← markEq, write_inside _ _ (by rw [zeros]; exact lt)]
      exact getElem_replicate ..
    have same (i : Nat) (low : s.logFirstIdx ≤ i) (high : i < s.logNextIdx) :
        fillRecord markMem 0 m z i = s.logBuf i := by
      rw [out i (by omega), ← markEq, write_outside _ (.inl high)]
    have marked : msgLen (fillRecord markMem 0 m z) s.logNextIdx = 0 := by
      rw [msgLen, out.get16_eq (by omega), get16, zero 8 (by omega), zero 9 (by omega)]
      rfl
    refine ⟨0, .wrapped (chain.congr same) marked room ?_ (cons_ne_nil _ _) ?_,
      chain.map_readRecord same, content⟩
    · have record := fillRecord_records markMem 0 fits
      rw [Nat.zero_add] at record
      exact record
    · show z.size + sizeofPrintkLog ≤ s.logFirstIdx
      omega
  | @wrapped high low mark upper marked room lower some gap =>
    have first := upper.le
    have free : s.logNextIdx + z.size + 16 ≤ s.logFirstIdx := by
      split at space
      case isTrue either =>
        rcases either with less | yes
        · omega
        · exact absurd (append_eq_nil_iff.mp (none yes)).2 some
      case isFalse => omega
    obtain ⟨out, len, _, _, content⟩ := fillRecord_spec s.logBuf s.logNextIdx fits
    have above (i : Nat) (le : s.logFirstIdx ≤ i) (_ : i < mark) :
        fillRecord s.logBuf s.logNextIdx m z i = s.logBuf i := out i (by omega)
    have below (i : Nat) (_ : 0 ≤ i) (lt : i < s.logNextIdx) :
        fillRecord s.logBuf s.logNextIdx m z i = s.logBuf i := out i (.inl lt)
    rw [appendRecord_behind small fits (by omega)]
    refine ⟨s.logNextIdx, ?_, ?_, content⟩
    · rw [append_assoc]
      refine .wrapped (upper.congr above) ?_ room
        ((lower.congr below).append (fillRecord_records _ _ fits)) (by simp) ?_
      · rw [msgLen, out.get16_eq (by omega)]
        exact marked
      · show s.logNextIdx + z.size + sizeofPrintkLog ≤ s.logFirstIdx
        omega
    · rw [map_append, map_append, upper.map_readRecord above, lower.map_readRecord below]

theorem appendRecord_ok (small : logBufLen ≤ 2 ^ 31) (ok : LogOk logBufLen s l history)
    (fits : Fits m z) (space : logbufHasSpace logBufLen s z.size empty = true)
    (none : empty = true → l = []) (count : s.logNextSeq + 1 < 2 ^ 64) :
    ∃ l', LogOk logBufLen (appendRecord logBufLen s m z) l' (history ++ [storedRecord m z]) := by
  obtain ⟨msg, layout, old, new⟩ := appendRecord_layout small ok.layout fits space none
  have nextSeq : (appendRecord logBufLen s m z).logNextSeq = s.logNextSeq + 1 := by
    rw [appendRecord]
    split
    · exact Nat.mod_eq_of_lt count
    · exact Nat.mod_eq_of_lt count
  have firstSeq : (appendRecord logBufLen s m z).logFirstSeq = s.logFirstSeq := by
    rw [appendRecord]
    split
    · rfl
    · rfl
  have ordered := ok.ordered
  have stored := ok.stored
  refine ⟨l ++ [msg], layout, ?_, ?_, ?_⟩
  · rw [length_append, length_singleton]
    omega
  · rw [nextSeq, length_append, length_singleton, stored]
  · rw [firstSeq, map_append, old, map_singleton, new, ok.content,
      drop_append_of_le_length (by omega)]

def usedSizes (logBufLen : Nat) (s : LogState) (m : LogMsg) : MsgSizes :=
  if (logMakeFreeSpace logBufLen s (plainSizes m).size).1 then plainSizes m
  else truncateMsg logBufLen m

theorem logStore_ok (large : 4096 ≤ logBufLen) (small : logBufLen ≤ 2 ^ 31)
    (ok : LogOk logBufLen s l history)
    (fits : Fits m (usedSizes logBufLen s m)) (count : s.logNextSeq + 1 < 2 ^ 64) :
    ∃ l', LogOk logBufLen (logStore logBufLen s m) l'
      (history ++ [storedRecord m (usedSizes logBufLen s m)]) := by
  obtain ⟨nextSeq, l1, ok1, space1⟩ := logMakeFreeSpace_spec small (plainSizes m).size ok
  unfold usedSizes at *
  by_cases plain : (logMakeFreeSpace logBufLen s (plainSizes m).size).1 = true
  · rw [if_pos plain] at fits ⊢
    obtain ⟨empty, space, none⟩ := space1 plain
    simp only [logStore, if_pos plain]
    exact appendRecord_ok small ok1 fits space none (by omega)
  rw [if_neg plain] at fits ⊢
  have half := truncateMsg_half large m
  have made : (logMakeFreeSpace logBufLen _ (truncateMsg logBufLen m).size).1 = true :=
    (logMakeFreeSpace_iff small ok1).mpr (by omega)
  obtain ⟨nextSeq2, l2, ok2, space2⟩ :=
    logMakeFreeSpace_spec small (truncateMsg logBufLen m).size ok1
  obtain ⟨empty, space, none⟩ := space2 made
  simp only [logStore, if_neg plain, if_pos made]
  exact appendRecord_ok small ok2 fits space none (by omega)

end Linux318.Source.Printk
