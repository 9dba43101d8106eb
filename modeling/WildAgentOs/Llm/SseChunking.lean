import WildAgentOs.Lib.Framing
import WildAgentOs.Llm.Sse

/-!
# Server-sent events in chunks

How a stream is cut into chunks does not change its events.  The parser keeps, of the bytes it was
given, what is left behind the last blank line once each carriage return in front of a line feed is
deleted; a carriage return at the end waits for the next chunk.

* `deleteCr`, `splitBlankLines`, `decodeStream`, `normalizeCrlfFrom_eq`, `Pushed.push`, `finish_pushAll`.
-/

namespace WildAgentOs.Llm

open LittleEndian Text Json List Option

/-! ### The whole stream -/

/-- Without each carriage return that a line feed follows at once. -/
def deleteCr : Bytes → Bytes
  | [] => []
  | b :: bs => if b = CR ∧ bs.head? = some LF then deleteCr bs else b :: deleteCr bs

/-- The pieces between the leftmost blank lines. -/
def splitBlankLines : Bytes → List Bytes
  | [] => [[]]
  | [b] => [[b]]
  | b :: b' :: bs =>
    if b = LF ∧ b' = LF then [] :: splitBlankLines bs
    else (splitBlankLines (b' :: bs)).modifyHead (b :: ·)

/-- The events of a whole stream: those of its pieces, in order. -/
def decodeStream (lib : SerdeJson) (stream : Bytes) : Except SseError (List StreamEvent) :=
  List.reduceOption <$>
    (splitBlankLines (deleteCr stream)).mapM fun piece => parseFrame lib (fromUtf8Lossy piece)

/-- Pushes of all chunks; the first error ends them. -/
def pushAll (lib : SerdeJson) (p : SseParser) : List Bytes → Except SseError (List StreamEvent × SseParser)
  | [] => .ok ([], p)
  | chunk :: chunks =>
    match p.push lib chunk with
    | (.error e, _) => .error e
    | (.ok events, p) => (fun r => (events ++ r.1, r.2)) <$> pushAll lib p chunks

/-! ### Carriage returns -/

theorem getLast?_deleteCr (xs : Bytes) : (deleteCr xs).getLast? = xs.getLast? := by
  induction xs with
  | nil => rfl
  | cons b bs ih =>
    unfold deleteCr
    split_ifs with h
    · -- The byte that goes is not the last one.
      cases bs with
      | nil => simp at h
      | cons b' bs => rw [ih, getLast?_cons_cons]
    · cases bs with
      | nil => rfl
      | cons b' bs =>
        rw [getLast?_cons, ih, getLast?_cons_cons, getLast?_cons]
        rfl

theorem deleteCr_cons (b : UInt8) (bs : Bytes) :
    deleteCr (b :: bs) = if b = CR ∧ bs.head? = some LF then deleteCr bs else b :: deleteCr bs :=
  rfl

/-- A cut between two parts is harmless unless it cuts a line end. -/
theorem deleteCr_append {xs ys : Bytes} (h : xs.getLast? = some CR → ys.head? ≠ some LF) :
    deleteCr (xs ++ ys) = deleteCr xs ++ deleteCr ys := by
  induction xs with
  | nil => rfl
  | cons b bs ih =>
    cases bs with
    | nil =>
      have hkeep : ¬ (b = CR ∧ ys.head? = some LF) := by
        rintro ⟨rfl, hys⟩
        exact h rfl hys
      simp [deleteCr, hkeep]
    | cons b' bs =>
      rw [getLast?_cons_cons] at h
      have hhead : (b' :: bs ++ ys).head? = (b' :: bs).head? := rfl
      rw [cons_append, deleteCr_cons b, deleteCr_cons b, hhead, ih h]
      split_ifs
      · rfl
      · rfl

section Loop

variable {buffer : Bytes} {limit read write : ℕ}

theorem drop_take_cons (hread : read < limit) (hlimit : limit ≤ buffer.length) :
    (buffer.take limit).drop read = buffer.getD read 0 :: (buffer.take limit).drop (read + 1) := by
  have hlt : read < (buffer.take limit).length := by
    rw [length_take]
    omega
  have hlt' : read < buffer.length := by omega
  rw [drop_eq_getElem_cons hlt, getElem_take, getD_eq_getElem?_getD, getElem?_eq_getElem hlt', getD_some]

theorem drop_take_set (x : UInt8) {k : ℕ} (h : write < k) :
    ((buffer.set write x).take limit).drop k = (buffer.take limit).drop k := by
  rw [take_set, drop_set_of_lt h]

theorem take_succ_set (x : UInt8) (h : write < buffer.length) :
    (buffer.set write x).take (write + 1) = buffer.take write ++ [x] := by
  rw [take_succ_eq_append_getElem (by simpa using h), take_set_of_le le_rfl,
    getElem_set_self]

/-- Copying a byte onto itself changes nothing. -/
theorem set_of_copy (h : read < buffer.length) :
    (if write ≠ read then buffer.set write (buffer.getD read 0) else buffer) =
      buffer.set write (buffer.getD read 0) := by
  split_ifs with hne
  · rfl
  · obtain rfl : write = read := not_not.1 hne
    rw [getD_eq_getElem?_getD, getElem?_eq_getElem h, getD_some, set_getElem_self]

/-- The written part gets the bytes that are read, less the deleted ones; nothing behind the limit
is touched. -/
theorem normalizeLoop_spec (fuel : ℕ) (hwrite : write ≤ read) (hread : read ≤ limit)
    (hlimit : limit ≤ buffer.length) (hfuel : limit - read ≤ fuel) :
    (normalizeLoop limit fuel buffer read write).2 ≤ limit ∧
      (normalizeLoop limit fuel buffer read write).1.take
          (normalizeLoop limit fuel buffer read write).2 =
        buffer.take write ++ deleteCr ((buffer.take limit).drop read) ∧
      (normalizeLoop limit fuel buffer read write).1.drop limit = buffer.drop limit := by
  have hdone : read = limit → (buffer.take limit).drop read = [] := by
    rintro rfl
    rw [drop_take_self]
  induction fuel generalizing buffer read write with
  | zero =>
    have hread' : read = limit := by omega
    rw [hdone hread']
    exact ⟨by simp only [normalizeLoop]; omega, by simp [normalizeLoop, deleteCr], rfl⟩
  | succ fuel ih =>
    unfold normalizeLoop
    by_cases hlt : read < limit
    · rw [if_pos hlt, drop_take_cons hlt hlimit]
      by_cases hcrlf : buffer.getD read 0 = CR ∧ read + 1 < limit ∧ buffer.getD (read + 1) 0 = LF
      · -- A line end: its line feed is written, both bytes are read.
        rw [if_pos hcrlf]
        obtain ⟨hcr, hlt', hlf⟩ := hcrlf
        have hwlt : write < buffer.length := by omega
        obtain ⟨hle, htake, hdrop⟩ := @ih (buffer.set write LF) (read + 2) (write + 1) (by omega)
          (by omega) (by simpa using hlimit) (by omega) (by
            intro h
            rw [h, drop_take_self])
        refine ⟨hle, ?_, ?_⟩
        · rw [htake, take_succ_set LF hwlt, drop_take_set LF (by omega), drop_take_cons hlt' hlimit,
            hcr, hlf]
          have hlfcr : LF ≠ CR := by decide
          simp [deleteCr, hlfcr]
        · rw [hdrop, drop_set_of_lt (by omega)]
      · have hread' : read < buffer.length := by omega
        rw [if_neg hcrlf, set_of_copy hread']
        obtain ⟨hle, htake, hdrop⟩ := @ih (buffer.set write (buffer.getD read 0)) (read + 1)
          (write + 1) (by omega) (by omega) (by simpa using hlimit) (by omega) (by
            intro h
            rw [h, drop_take_self])
        refine ⟨hle, ?_, ?_⟩
        · rw [htake, take_succ_set _ (by omega), drop_take_set _ (by omega), append_assoc]
          -- The byte is no carriage return in front of a line feed.
          have hkeep : ¬ (buffer.getD read 0 = CR ∧ ((buffer.take limit).drop (read + 1)).head? = some LF) := by
            rintro ⟨hcr, hhead⟩
            by_cases hnext : read + 1 < limit
            · rw [drop_take_cons hnext hlimit, head?_cons] at hhead
              exact hcrlf ⟨hcr, hnext, some.inj hhead⟩
            · have hnil : (buffer.take limit).drop (read + 1) = [] := by
                rw [drop_eq_nil_iff, length_take]
                omega
              rw [hnil] at hhead
              cases hhead
          rw [deleteCr, if_neg hkeep]
          rfl
        · rw [hdrop, drop_set_of_lt (by omega)]
    · rw [if_neg hlt, hdone (by omega)]
      exact ⟨by simp only; omega, by simp [deleteCr], rfl⟩

end Loop

variable {buffer : Bytes}

/-- **Only the new part is normalized**, and there as on its own. -/
theorem normalizeCrlfFrom_eq {start : ℕ} (h : start ≤ buffer.length) :
    normalizeCrlfFrom buffer start = buffer.take start ++ deleteCr (buffer.drop start) := by
  -- Behind the limit stands at most one carriage return.
  obtain ⟨limit, hlimit, hle, htail, hdef⟩ :
      ∃ limit, limit = (if buffer.getLast? = some CR then buffer.length - 1 else buffer.length) ∧
        limit ≤ buffer.length ∧ (buffer.drop limit = [] ∨ buffer.drop limit = [CR]) ∧
        buffer.length ≤ limit + 1 := by
    refine ⟨_, rfl, ?_, ?_, ?_⟩
    · split_ifs <;> omega
    · split_ifs with hcr
      · right
        have hne : buffer ≠ [] := by
          rintro rfl
          cases hcr
        rw [getLast?_eq_some_getLast hne, some_inj] at hcr
        rw [drop_length_sub_one hne, hcr]
      · left
        exact drop_length
    · split_ifs <;> omega
  unfold normalizeCrlfFrom
  rw [← hlimit]
  by_cases hstart : limit ≤ start
  · simp only [if_pos hstart]
    have hdrop : deleteCr (buffer.drop start) = buffer.drop start := by
      rcases eq_or_lt_of_le hstart with rfl | hlt
      · rcases htail with htail | htail <;> rw [htail] <;> rfl
      · have hend : buffer.drop start = [] := by
          rw [drop_eq_nil_iff]
          omega
        rw [hend]
        rfl
    rw [hdrop, take_append_drop]
  · simp only [if_neg hstart]
    obtain ⟨hwle, htake, hdrop⟩ := normalizeLoop_spec (limit - start) (le_refl start)
      (by omega : start ≤ limit) hle le_rfl
    generalize normalizeLoop limit (limit - start) buffer start start = r at hwle htake hdrop ⊢
    obtain ⟨buffer', write⟩ := r
    simp only at hwle htake hdrop ⊢
    have hres : (if write ≠ limit then buffer'.take write ++ buffer'.drop limit else buffer') =
        buffer'.take write ++ buffer'.drop limit := by
      split_ifs with hne
      · rfl
      · rw [not_not.1 hne, take_append_drop]
    have hsplit : buffer.drop start = (buffer.take limit).drop start ++ buffer.drop limit := by
      conv_lhs => rw [← take_append_drop limit buffer]
      rw [drop_append_of_le_length (by rw [length_take]; omega)]
    rw [hres, htake, hdrop, hsplit, append_assoc, deleteCr_append]
    · rcases htail with htail | htail <;> rw [htail] <;> rfl
    · intro _
      rcases htail with htail | htail <;> rw [htail] <;> decide

/-! ### Blank lines -/

variable {xs : Bytes} {p : ℕ}

theorem blankLine_some (h : blankLine xs = some p) : xs = xs.take p ++ LF :: LF :: xs.drop (p + 2) := by
  induction xs generalizing p with
  | nil => cases h
  | cons b bs ih =>
    unfold blankLine at h
    split_ifs at h with hb
    · obtain ⟨rfl, hhead⟩ := hb
      cases h
      cases bs with
      | nil => cases hhead
      | cons b' bs =>
        cases hhead
        rfl
    · obtain ⟨q, hq, rfl⟩ := map_eq_some_iff.1 h
      have hbs := ih hq
      calc b :: bs = b :: (bs.take q ++ LF :: LF :: bs.drop (q + 2)) := by rw [← hbs]
        _ = _ := rfl

/-- The first blank line does not depend on what stands behind it. -/
theorem blankLine_append (h : blankLine xs = some p) (r : Bytes) : blankLine (xs.take (p + 2) ++ r) = some p := by
  induction xs generalizing p with
  | nil => cases h
  | cons b bs ih =>
    unfold blankLine at h
    split_ifs at h with hb
    · obtain ⟨rfl, hhead⟩ := hb
      cases h
      cases bs with
      | nil => cases hhead
      | cons b' bs =>
        cases hhead
        simp [blankLine]
    · obtain ⟨q, hq, rfl⟩ := map_eq_some_iff.1 h
      have hhead : (bs.take (q + 2) ++ r).head? = bs.head? := by
        cases bs with
        | nil => cases hq
        | cons b' bs => rfl
      have hcons : (b :: bs).take (q + 1 + 2) ++ r = b :: (bs.take (q + 2) ++ r) := rfl
      rw [hcons, blankLine, hhead, if_neg hb, ih hq]
      rfl

theorem take_add_two_of_blankLine (h : blankLine xs = some p) : xs.take (p + 2) = xs.take p ++ [LF, LF] := by
  have hsplit : xs.take (p + 2) ++ xs.drop (p + 2) = (xs.take p ++ [LF, LF]) ++ xs.drop (p + 2) := by
    rw [take_append_drop, append_assoc]
    exact blankLine_some h
  exact append_cancel_right hsplit

/-- A piece ends with its blank line. -/
def blankLineCutter : Framing.Cutter UInt8 where
  cut xs := (blankLine xs).map fun p => (xs.take (p + 2), xs.drop (p + 2))
  append_of_cut := by
    intro xs t r h
    obtain ⟨p, -, heq⟩ := map_eq_some_iff.1 h
    cases heq
    exact take_append_drop _ _
  ne_nil_of_cut := by
    intro xs t r h hnil
    obtain ⟨p, hp, heq⟩ := map_eq_some_iff.1 h
    cases heq
    rw [take_add_two_of_blankLine hp] at hnil
    simp at hnil
  cut_append := by
    intro xs t r h r'
    obtain ⟨p, hp, heq⟩ := map_eq_some_iff.1 h
    cases heq
    have hlen : (xs.take (p + 2)).length = p + 2 := by
      have hxs := congrArg List.length (take_add_two_of_blankLine hp)
      have hp' := congrArg List.length (blankLine_some hp)
      simp only [length_append, length_take, length_cons, length_drop, length_nil] at hxs hp' ⊢
      omega
    rw [blankLine_append hp r', map_some, take_left' hlen, drop_left' hlen]

theorem cut_eq (xs : Bytes) : blankLineCutter.cut xs =
    (blankLine xs).map fun p => (xs.take (p + 2), xs.drop (p + 2)) := rfl

/-- The text of a piece: without its blank line. -/
def pieceText (piece : Bytes) : Bytes := piece.dropLast.dropLast

theorem splitBlankLines_of_none (h : blankLine xs = none) : splitBlankLines xs = [xs] := by
  induction xs with
  | nil => rfl
  | cons b bs ih =>
    unfold blankLine at h
    split_ifs at h with hb
    have hbs := ih (map_eq_none_iff.1 h)
    cases bs with
    | nil => rfl
    | cons b' bs =>
      have hb' : ¬ (b = LF ∧ b' = LF) := by
        rintro ⟨rfl, rfl⟩
        exact hb ⟨rfl, rfl⟩
      rw [splitBlankLines, if_neg hb', hbs]
      rfl

theorem splitBlankLines_of_some (h : blankLine xs = some p) :
    splitBlankLines xs = xs.take p :: splitBlankLines (xs.drop (p + 2)) := by
  induction xs generalizing p with
  | nil => cases h
  | cons b bs ih =>
    unfold blankLine at h
    split_ifs at h with hb
    · obtain ⟨rfl, hhead⟩ := hb
      cases h
      cases bs with
      | nil => cases hhead
      | cons b' bs =>
        cases hhead
        rfl
    · obtain ⟨q, hq, rfl⟩ := map_eq_some_iff.1 h
      have hbs := ih hq
      cases bs with
      | nil => cases hq
      | cons b' bs =>
        have hb' : ¬ (b = LF ∧ b' = LF) := by
          rintro ⟨rfl, rfl⟩
          exact hb ⟨rfl, rfl⟩
        rw [splitBlankLines, if_neg hb', hbs]
        rfl

/-- The stream is split where the parser cuts it. -/
theorem splitBlankLines_eq (xs : Bytes) :
    splitBlankLines xs = (blankLineCutter.pieces xs).map pieceText ++ [blankLineCutter.rest xs] := by
  induction hn : xs.length using Nat.strong_induction_on generalizing xs with
  | _ n ih =>
    cases hp : blankLine xs with
    | none =>
      have hcut : blankLineCutter.cut xs = none := by rw [cut_eq, hp]; rfl
      obtain ⟨hpieces, hrest⟩ := blankLineCutter.pieces_of_none hcut
      rw [splitBlankLines_of_none hp, hpieces, hrest]
      rfl
    | some p =>
      have hcut : blankLineCutter.cut xs = some (xs.take (p + 2), xs.drop (p + 2)) := by
        rw [cut_eq, hp]
        rfl
      obtain ⟨hpieces, hrest⟩ := blankLineCutter.pieces_of_some hcut
      have htext : pieceText (xs.take (p + 2)) = xs.take p := by
        rw [take_add_two_of_blankLine hp]
        simp [pieceText]
      rw [splitBlankLines_of_some hp, hpieces, hrest, map_cons, htext, cons_append,
        ih _ (hn ▸ blankLineCutter.length_lt_of_cut hcut) _ rfl]

/-- What ends in a carriage return behind the last piece ends in one altogether. -/
theorem getLast?_rest (xs : Bytes) : (blankLineCutter.rest xs).getLast? = some CR ↔ xs.getLast? = some CR := by
  have happ := blankLineCutter.flatten_pieces_append_rest xs
  by_cases hrest : blankLineCutter.rest xs = []
  · -- Otherwise the last byte is that of a blank line.
    rw [hrest, append_nil] at happ
    rw [hrest, ← happ]
    rcases eq_nil_or_concat (blankLineCutter.pieces xs) with hnil | ⟨ps, piece, hps⟩
    · rw [hnil]
      simp
    · have hmem : piece ∈ blankLineCutter.pieces xs := by
        rw [hps]
        simp
      have hcut := blankLineCutter.cut_of_mem_pieces hmem []
      rw [cut_eq] at hcut
      obtain ⟨p, hp, heq⟩ := map_eq_some_iff.1 hcut
      have hpiece : piece = (piece ++ []).take p ++ [LF, LF] := by
        rw [← take_add_two_of_blankLine hp]
        exact (Prod.mk.inj heq).1.symm
      rw [hps, hpiece]
      have hlf : LF ≠ CR := by decide
      simp [hlf]
  · conv_rhs => rw [← happ]
    rw [getLast?_append_of_ne_nil _ hrest]

/-! ### Frames -/

theorem parseOpenaiStreamEvent_ok (lib : SerdeJson) (json : Value) :
    ∃ event, parseOpenaiStreamEvent lib json = .ok event := by
  unfold parseOpenaiStreamEvent
  split_ifs
  · exact ⟨_, rfl⟩
  · split
    · exact ⟨_, rfl⟩
    · exact ⟨_, rfl⟩
    · split
      · exact ⟨_, rfl⟩
      · exact ⟨_, rfl⟩

theorem parseResponsesApiEvent_ok (lib : SerdeJson) (json : Value) :
    ∃ event, parseResponsesApiEvent lib json = .ok event := by
  unfold parseResponsesApiEvent
  simp only
  split_ifs <;> exact ⟨_, rfl⟩

theorem parseFrame_ok (lib : SerdeJson) (frame : List Char) : ∃ event, parseFrame lib frame = .ok event := by
  unfold parseFrame
  simp only
  split_ifs
  · exact ⟨_, rfl⟩
  · exact ⟨_, rfl⟩
  · exact ⟨_, rfl⟩
  · exact ⟨_, rfl⟩
  · split
    · exact ⟨_, rfl⟩
    · split_ifs
      · exact parseResponsesApiEvent_ok lib _
      · exact parseOpenaiStreamEvent_ok lib _

def pieceEvent (lib : SerdeJson) (piece : Bytes) : Option StreamEvent :=
  (parseFrame lib (fromUtf8Lossy piece)).toOption.join

section

variable (lib : SerdeJson)
include lib

theorem parseFrame_eq (piece : Bytes) :
    parseFrame lib (fromUtf8Lossy piece) = .ok (pieceEvent lib piece) := by
  obtain ⟨event, h⟩ := parseFrame_ok lib (fromUtf8Lossy piece)
  unfold pieceEvent
  rw [h]
  rfl

theorem decodeStream_eq (stream : Bytes) :
    decodeStream lib stream = .ok ((splitBlankLines (deleteCr stream)).filterMap (pieceEvent lib)) := by
  have hmapM : ∀ pieces : List Bytes,
      (pieces.mapM fun piece => parseFrame lib (fromUtf8Lossy piece)) = .ok (pieces.map (pieceEvent lib)) := by
    intro pieces
    induction pieces with
    | nil => rfl
    | cons piece pieces ih =>
      rw [mapM_cons, ih, parseFrame_eq]
      rfl
  unfold decodeStream
  rw [hmapM]
  show Except.ok (List.filterMap id _) = _
  rw [filterMap_map]
  rfl

theorem pieceEvent_nil : pieceEvent lib [] = none := rfl

theorem finish_eq (p : SseParser) : p.finish lib = .ok (pieceEvent lib p.buffer).toList := by
  unfold SseParser.finish
  split_ifs with h
  · rw [h, pieceEvent_nil]
    rfl
  · rw [parseFrame_eq]
    rfl

/-- The loop of `push` takes all complete pieces. -/
theorem drainFrames_eq {fuel : ℕ} (events : List StreamEvent) (hfuel : buffer.length ≤ fuel) :
    drainFrames lib fuel buffer events =
      (.ok (events ++ (blankLineCutter.pieces buffer).filterMap fun piece => pieceEvent lib (pieceText piece)),
        blankLineCutter.rest buffer) := by
  induction fuel generalizing buffer events with
  | zero =>
    obtain rfl : buffer = [] := length_eq_zero_iff.1 (Nat.le_zero.1 hfuel)
    simp [drainFrames, Framing.Cutter.pieces, Framing.Cutter.rest, Framing.Cutter.cutFrom]
  | succ fuel ih =>
    unfold drainFrames nextFrame
    cases hp : blankLine buffer with
    | none =>
      have hcut : blankLineCutter.cut buffer = none := by rw [cut_eq, hp]; rfl
      obtain ⟨hpieces, hrest⟩ := blankLineCutter.pieces_of_none hcut
      rw [hpieces, hrest]
      simp
    | some p =>
      have hcut : blankLineCutter.cut buffer = some (buffer.take (p + 2), buffer.drop (p + 2)) := by
        rw [cut_eq, hp]
        rfl
      have hlt := blankLineCutter.length_lt_of_cut hcut
      obtain ⟨hpieces, hrest⟩ := blankLineCutter.pieces_of_some hcut
      have htext : pieceText (buffer.take (p + 2)) = buffer.take p := by
        rw [take_add_two_of_blankLine hp]
        simp [pieceText]
      rw [hpieces, hrest, filterMap_cons, htext]
      simp only [map_some, parseFrame_eq]
      cases hevent : pieceEvent lib (buffer.take p) with
      | none => exact ih events (by omega)
      | some event =>
        simp only
        rw [ih (events ++ [event]) (by omega), append_assoc]
        rfl

end

/-! ### Chunks -/

/-- What the parser has given and kept of the bytes pushed so far. -/
structure Pushed (lib : SerdeJson) (stream : Bytes) (events : List StreamEvent) (p : SseParser) : Prop where
  events_eq : events = (blankLineCutter.pieces (deleteCr stream)).filterMap fun piece =>
    pieceEvent lib (pieceText piece)
  buffer_eq : p.buffer = blankLineCutter.rest (deleteCr stream)

variable {lib : SerdeJson} {stream chunk : Bytes} {events : List StreamEvent} {p : SseParser}

theorem Pushed.nil : Pushed lib [] [] {} where
  events_eq := rfl
  buffer_eq := rfl

/-- The normalized buffer is what the whole stream leaves behind the pieces taken before. -/
theorem Pushed.normalized (h : Pushed lib stream events p) (chunk : Bytes) : deleteCr (stream ++ chunk) =
      (blankLineCutter.pieces (deleteCr stream)).flatten ++
        normalizeCrlfFrom (p.buffer ++ chunk)
          (if p.buffer.getLast? = some CR then p.buffer.length - 1 else p.buffer.length) := by
  have happ := blankLineCutter.flatten_pieces_append_rest (deleteCr stream)
  rw [← h.buffer_eq] at happ
  have hlast : p.buffer.getLast? = some CR ↔ stream.getLast? = some CR := by
    rw [h.buffer_eq, getLast?_rest, getLast?_deleteCr]
  rw [normalizeCrlfFrom_eq (by rw [length_append]; split_ifs <;> omega)]
  split_ifs with hcr
  · -- The carriage return is read again, in front of the new bytes.
    obtain ⟨buffer, hbuffer⟩ : ∃ buffer, p.buffer = buffer ++ [CR] := getLast?_eq_some_iff.1 hcr
    obtain ⟨front, hfront⟩ : ∃ front, stream = front ++ [CR] := getLast?_eq_some_iff.1 (hlast.1 hcr)
    have hcrlf : CR ≠ LF := by decide
    have hfrontDelete : ∀ ys : Bytes, deleteCr (front ++ CR :: ys) = deleteCr front ++ deleteCr (CR :: ys) := fun ys =>
      deleteCr_append fun _ hhead => hcrlf (some.inj hhead)
    have hone : deleteCr [CR] = [CR] := by decide
    have hkeep : deleteCr front = (blankLineCutter.pieces (deleteCr stream)).flatten ++ buffer := by
      rw [hbuffer, hfront, hfrontDelete, hone, ← append_assoc] at happ
      rw [hfront, hfrontDelete, hone]
      exact (append_cancel_right happ).symm
    have hlen : p.buffer.length - 1 = buffer.length := by
      rw [hbuffer]
      simp
    rw [hlen, hbuffer, append_assoc, take_left, drop_left]
    have hstream : stream ++ chunk = front ++ CR :: chunk := by
      rw [hfront]
      simp
    rw [hstream, hfrontDelete, hkeep, append_assoc]
    rfl
  · rw [deleteCr_append fun hstream => absurd (hlast.2 hstream) hcr, take_left, drop_left, ← happ, append_assoc]
    rw [happ]

variable {new : List StreamEvent} {p' : SseParser}

section

variable (h : Pushed lib stream events p)
include h

/-- **A push** that is no error gives the events of the pieces it completes. -/
theorem Pushed.push
    (hpush : p.push lib chunk = (.ok new, p')) : Pushed lib (stream ++ chunk) (events ++ new) p' := by
  have hnormalized := h.normalized chunk
  unfold SseParser.push at hpush
  simp only [drainFrames_eq lib _ le_rfl, nil_append] at hpush
  generalize normalizeCrlfFrom (p.buffer ++ chunk) _ = buffer at hnormalized hpush
  split_ifs at hpush with hcap
  · cases hpush
  · obtain ⟨hnew, rfl⟩ := Prod.mk.inj hpush
    cases hnew
    obtain ⟨hpieces, hrest⟩ := (blankLineCutter.pieces_taken (deleteCr stream)).2 buffer
    constructor
    · rw [hnormalized, hpieces, filterMap_append, ← h.events_eq]
    · rw [hnormalized, hrest]

theorem Pushed.pushAll {chunks : List Bytes}
    (hpush : pushAll lib p chunks = .ok (new, p')) : Pushed lib (stream ++ chunks.flatten) (events ++ new) p' := by
  induction chunks generalizing stream events p new with
  | nil =>
    cases hpush
    simpa using h
  | cons chunk chunks ih =>
    unfold WildAgentOs.Llm.pushAll at hpush
    cases hfirst : p.push lib chunk with
    | mk result p₁ =>
      rw [hfirst] at hpush
      cases result with
      | error e => cases hpush
      | ok first =>
        dsimp only at hpush
        cases hrest : WildAgentOs.Llm.pushAll lib p₁ chunks with
        | error e =>
          rw [hrest] at hpush
          cases hpush
        | ok r =>
          rw [hrest] at hpush
          cases hpush
          have hall := ih (h.push hfirst) hrest
          rw [flatten_cons, ← append_assoc, ← append_assoc]
          exact hall

/-- The events of a whole stream, once it has been pushed. -/
theorem Pushed.finish : (events ++ ·) <$> p.finish lib = decodeStream lib stream := by
  rw [finish_eq, decodeStream_eq, splitBlankLines_eq, filterMap_append, filterMap_map, h.buffer_eq, h.events_eq]
  show Except.ok _ = _
  rw [filterMap_cons]
  cases pieceEvent lib (blankLineCutter.rest (deleteCr stream)) with
  | none => rfl
  | some event => rfl

end

/-- **Decoding is independent of chunking.**  Two cuts of one stream whose pushes are no errors
give the same events, and these are the events of the stream's pieces. -/
theorem finish_pushAll {chunks chunks' : List Bytes} {events' : List StreamEvent}
    {p' : SseParser} (hflatten : chunks.flatten = chunks'.flatten)
    (hpush : pushAll lib {} chunks = .ok (events, p))
    (hpush' : pushAll lib {} chunks' = .ok (events', p')) :
    (events ++ ·) <$> p.finish lib = (events' ++ ·) <$> p'.finish lib ∧
      (events ++ ·) <$> p.finish lib = decodeStream lib chunks.flatten ∧
      ∃ all, decodeStream lib chunks.flatten = .ok all := by
  have h : Pushed lib chunks.flatten events p := Pushed.nil.pushAll hpush
  have h' : Pushed lib chunks'.flatten events' p' := Pushed.nil.pushAll hpush'
  refine ⟨?_, h.finish, _, decodeStream_eq lib _⟩
  rw [h.finish, h'.finish, hflatten]

/-- A cut inside the line ends of a blank line, and no cut at all. -/
theorem finish_pushAll_crlf : ∃ (lib : SerdeJson) (front back : Bytes) (event : StreamEvent),
      front.getLast? = some CR ∧ back.head? = some LF ∧ decodeStream lib [front, back].flatten = .ok [event] := by
  -- The frame `data: {"id":"a"}`, its blank line, and the start of a comment.
  let object : List Char := "\x7b\"id\":\"a\"\x7d".toList
  let lib : SerdeJson :=
    { fromStr := fun s =>
        if s = object then some (.object [("id", .string "a")]) else none
      asF64 := fun _ => none }
  let front : Bytes := ("data: ".toList ++ object).map (·.toNat.toUInt8) ++ [CR, LF, CR]
  let back : Bytes := [LF, 58, 32]
  have hcut : pushAll lib {} [front, back] =
      .ok ([.messageStart (some "a") none "assistant"], { buffer := [58, 32] }) := by
    decide +kernel
  have hwhole : pushAll lib {} [front ++ back] =
      .ok ([.messageStart (some "a") none "assistant"], { buffer := [58, 32] }) := by
    decide +kernel
  have hfinish := (finish_pushAll (by simp) hcut hwhole).2.1
  refine ⟨lib, front, back, .messageStart (some "a") none "assistant", by decide, by decide, ?_⟩
  rw [← hfinish]
  decide +kernel

end WildAgentOs.Llm
