import Mielofon.Lib.Stream

namespace Mielofon

open Lib

/-!
# Frames

Every message is a frame on a stream: a big-endian `u32` length, then the body (`frame.rs`).
The body is JSON; what serialises it is a parameter that reads back what it wrote.

* `JsonCodec` — the serialiser;
* `writeFrame`, `readFrame` — one frame;
* `writeFrames`, `readFrames` — several on one stream;
* `readFrame_frame`, `readFrame_of_header` — what a read makes of a frame and of a torn one;
* `FramedStream`, `framedStream_iff` — the frames are a codec, but for a cut inside a header.
-/

/-- JSON serialisation of a message type, which reads back what it wrote. -/
structure JsonCodec (T : Type*) where
  toVec : T → Except String (List UInt8)
  fromSlice : List UInt8 → Except String T
  fromSlice_toVec : ∀ value body, toVec value = .ok body → fromSlice body = .ok value

/-- Largest frame accepted. -/
def maxFrame : ℕ := 16 * 1024 * 1024

inductive FrameError where
  | tooLarge (len : ℕ)
  /-- The stream closed before a frame arrived. -/
  | closed
  | io (e : IoError)
  | json (message : String)
deriving DecidableEq, Repr

variable {T : Type*} (json : JsonCodec T)

/-! ### One frame -/

/-- Write the header and then the body. -/
def writeBody (sink : Sink) (body : List UInt8) : Except FrameError Unit × Sink :=
  match sink.writeAll (be32 body.length) with
  | (.error e, sink) => (.error (.io e), sink)
  | (.ok (), sink) => match sink.writeAll body with
    | (.error e, sink) => (.error (.io e), sink)
    | (.ok (), sink) => (.ok (), sink)

/-- Write one frame. -/
def writeFrame (sink : Sink) (value : T) : Except FrameError Unit × Sink :=
  match json.toVec value with
  | .error message => (.error (.json message), sink)
  | .ok body =>
    if maxFrame < body.length then (.error (.tooLarge body.length), sink) else writeBody sink body

/-- Read the body a header has announced. -/
def readBody (src : Source) (len : ℕ) : Except FrameError T × Source :=
  if maxFrame < len then (.error (.tooLarge len), src)
  else match src.readExact len with
    | (.error e, src) => (.error (.io e), src)
    | (.ok body, src) => match json.fromSlice body with
      | .error message => (.error (.json message), src)
      | .ok value => (.ok value, src)

/-- Read one frame.  A stream that ends within the four bytes of a header is `closed`. -/
def readFrame (src : Source) : Except FrameError T × Source :=
  match src.readExact 4 with
  | (.error .unexpectedEof, src) => (.error .closed, src)
  | (.error e, src) => (.error (.io e), src)
  | (.ok head, src) => readBody json src (ofBe32 head)

/-! ### Several frames -/

/-- Write messages in order, up to the first that cannot be written. -/
def writeFrames (sink : Sink) : List T → Except FrameError Unit × Sink
  | [] => (.ok (), sink)
  | value :: rest => match writeFrame json sink value with
    | (.error e, sink) => (.error e, sink)
    | (.ok (), sink) => writeFrames sink rest

/-- Read `n` times. -/
def readFrames (src : Source) : ℕ → List (Except FrameError T)
  | 0 => []
  | n + 1 => (readFrame json src).1 :: readFrames (readFrame json src).2 n

/-- The bytes of a frame. -/
def frame (body : List UInt8) : List UInt8 := be32 body.length ++ body

/-- The body a message is sent as: its serialisation, when that is within the limit. -/
def SentAs (value : T) (body : List UInt8) : Prop :=
  json.toVec value = .ok body ∧ body.length ≤ maxFrame

/-! ### What a write leaves -/

variable {json} {value : T} {body : List UInt8}

theorem length_frame (body : List UInt8) : (frame body).length = 4 + body.length := by
  rw [frame, List.length_append, length_be32]

theorem lt_of_le_maxFrame {n : ℕ} (h : n ≤ maxFrame) : n < 2 ^ 32 := by
  have hmax : maxFrame = 2 ^ 24 := rfl
  omega

/-- A message within the limit is written as its frame. -/
theorem writeFrame_sent (h : SentAs json value body) (written : List UInt8) :
    writeFrame json ⟨written, none⟩ value = (.ok (), ⟨written ++ frame body, none⟩) := by
  rw [writeFrame, h.1]
  dsimp only
  rw [if_neg (Nat.not_lt.mpr h.2), writeBody, Sink.writeAll_of_none rfl]
  dsimp only
  rw [Sink.writeAll_of_none rfl, frame, List.append_assoc]

/-- **An oversize message** is refused with nothing written. -/
theorem writeFrame_oversize (h : json.toVec value = .ok body) (hlen : maxFrame < body.length)
    (sink : Sink) : writeFrame json sink value = (.error (.tooLarge body.length), sink) := by
  rw [writeFrame, h]
  exact if_pos hlen

/-! ### What a read makes of it -/

/-- A frame is read, and what follows it is left. -/
theorem readFrame_frame (h : SentAs json value body) (rest : List UInt8) (broken : Option String) :
    readFrame json ⟨frame body ++ rest, broken⟩ = (.ok value, ⟨rest, broken⟩) := by
  rw [readFrame, frame, List.append_assoc, ← length_be32 body.length, Source.readExact_append]
  dsimp only
  rw [ofBe32_be32 (lt_of_le_maxFrame h.2), readBody, if_neg (Nat.not_lt.mpr h.2),
    Source.readExact_append]
  dsimp only
  rw [json.fromSlice_toVec value body h.1]

/-- A stream that ends within a header is closed. -/
theorem readFrame_of_short {bytes : List UInt8} (h : bytes.length < 4) :
    readFrame json (.ended bytes) = (.error .closed, .ended []) := by
  rw [readFrame, Source.readExact_of_lt h]
  rfl

/-- **An oversize header** is refused with the bytes after it unread. -/
theorem readFrame_of_header {head : List UInt8} (hhead : head.length = 4)
    (hlen : maxFrame < ofBe32 head) (rest : List UInt8) (broken : Option String) :
    readFrame json ⟨head ++ rest, broken⟩ = (.error (.tooLarge (ofBe32 head)), ⟨rest, broken⟩) := by
  rw [readFrame, ← hhead, Source.readExact_append]
  exact if_pos hlen

/-- A frame cut after its header, or at its end, is an error of the stream. -/
theorem readFrame_torn (h : body.length ≤ maxFrame) {k : ℕ} (hk : k < body.length) :
    readFrame json (.ended (be32 body.length ++ body.take k)) =
      (.error (.io .unexpectedEof), .ended []) := by
  have hshort : (body.take k).length < body.length := by
    rw [List.length_take]
    omega
  rw [readFrame, Source.ended, ← length_be32 body.length, Source.readExact_append]
  dsimp only
  rw [ofBe32_be32 (lt_of_le_maxFrame h), readBody, if_neg (Nat.not_lt.mpr h),
    Source.readExact_of_lt hshort]
  rfl

/-! ### The codec -/

/-- Writing a list of messages leaves their frames, one after the other. -/
theorem writeFrames_sent {values : List T} {bodies : List (List UInt8)}
    (h : List.Forall₂ (SentAs json) values bodies) (written : List UInt8) :
    writeFrames json ⟨written, none⟩ values = (.ok (), ⟨written ++ bodies.flatMap frame, none⟩) := by
  induction h generalizing written with
  | nil => simp [writeFrames]
  | cons hsent _ ih =>
    rw [writeFrames, writeFrame_sent hsent]
    dsimp only
    rw [ih, List.flatMap_cons, List.append_assoc]

/-- Reading them returns the messages; every read after that says the stream is closed. -/
theorem readFrames_sent {values : List T} {bodies : List (List UInt8)}
    (h : List.Forall₂ (SentAs json) values bodies) (m : ℕ) :
    readFrames json (.ended (bodies.flatMap frame)) (values.length + m) =
      values.map .ok ++ List.replicate m (.error .closed) := by
  induction h with
  | nil =>
    -- nothing is left: every read finds the end of the stream
    simp only [List.flatMap_nil, List.length_nil, Nat.zero_add, List.map_nil, List.nil_append]
    induction m with
    | zero => rfl
    | succ m ih =>
      have hread : readFrame json (.ended []) = (.error .closed, .ended []) :=
        readFrame_of_short (by decide)
      rw [readFrames, hread, ih, List.replicate_succ]
  | @cons value body values bodies hsent _ ih =>
    have hlen : (value :: values).length + m = values.length + m + 1 := by
      rw [List.length_cons]
      omega
    rw [hlen, readFrames, List.flatMap_cons, Source.ended, readFrame_frame hsent]
    dsimp only
    rw [List.map_cons, List.cons_append, ← ih]
    rfl

/-- What a read makes of the first `k` bytes of a frame. -/
theorem readFrame_take (h : body.length ≤ maxFrame) {k : ℕ} (hk : k < (frame body).length) :
    (readFrame json (.ended ((frame body).take k))).1 =
      .error (if k < 4 then .closed else .io .unexpectedEof) := by
  split
  · rename_i hhead
    rw [readFrame_of_short]
    rw [List.length_take]
    omega
  · rename_i hhead
    -- the cut is in the body: the header is whole
    obtain ⟨j, rfl⟩ : ∃ j, k = (be32 body.length).length + j := ⟨k - 4, by rw [length_be32]; omega⟩
    have hj : j < body.length := by
      rw [length_frame, length_be32] at hk
      omega
    rw [frame, List.take_length_add_append, readFrame_torn h hj]

/-- A message whose serialisation is within the limit. -/
def Sendable (json : JsonCodec T) (value : T) : Prop := ∃ body, SentAs json value body

/-- The bytes one message is written as. -/
def bytesOf (json : JsonCodec T) (value : T) : List UInt8 :=
  (writeFrame json .opened value).2.written

/-- The framed stream is a codec, as far as the first `k` bytes of the frame of `value` go. -/
structure FramedStream (json : JsonCodec T) (value : T) (k : ℕ) : Prop where
  /-- Messages written in order are read in order, and then the stream is closed. -/
  roundTrip : ∀ values : List T, (∀ v ∈ values, Sendable json v) → ∃ bytes,
    writeFrames json .opened values = (.ok (), ⟨bytes, none⟩) ∧
      ∀ m, readFrames json (.ended bytes) (values.length + m) =
        values.map .ok ++ List.replicate m (.error .closed)
  /-- A strict prefix is an error, and only the empty one a clean end. -/
  torn : ∃ e, (readFrame json (.ended ((bytesOf json value).take k))).1 = .error e ∧
    (e = .closed ↔ k = 0)
  /-- An oversize message writes nothing. -/
  oversize : ∀ (v : T) (body : List UInt8) (sink : Sink), json.toVec v = .ok body →
    maxFrame < body.length → writeFrame json sink v = (.error (.tooLarge body.length), sink)
  /-- An oversize header is refused with the body unread. -/
  header : ∀ (head rest : List UInt8) (broken : Option String), head.length = 4 →
    maxFrame < ofBe32 head →
      readFrame json ⟨head ++ rest, broken⟩ = (.error (.tooLarge (ofBe32 head)), ⟨rest, broken⟩)

/-- A frame that was sent is the frame of its body. -/
theorem bytesOf_sent (h : SentAs json value body) : bytesOf json value = frame body := by
  rw [bytesOf, Sink.opened, writeFrame_sent h, List.nil_append]

/-- The bodies of messages that can be sent. -/
theorem exists_bodies {values : List T} (h : ∀ v ∈ values, Sendable json v) :
    ∃ bodies, List.Forall₂ (SentAs json) values bodies := by
  induction values with
  | nil => exact ⟨[], .nil⟩
  | cons value values ih =>
    obtain ⟨bodies, hrest⟩ := ih (fun v hv => h v (List.mem_cons_of_mem _ hv))
    obtain ⟨body, hsent⟩ := h value List.mem_cons_self
    exact ⟨body :: bodies, .cons hsent hrest⟩

/-- **The framed stream.** Lists of messages are read back, a torn frame is an error, and what is
    oversize is refused on either side; a frame cut inside its header is taken for a clean end. -/
theorem framedStream_iff (h : Sendable json value) {k : ℕ} (hk : k < (bytesOf json value).length) :
    FramedStream json value k ↔ k = 0 ∨ 4 ≤ k := by
  obtain ⟨body, hsent⟩ := h
  rw [bytesOf_sent hsent] at hk
  have hread : (readFrame json (.ended ((frame body).take k))).1 =
      .error (if k < 4 then .closed else .io .unexpectedEof) := readFrame_take hsent.2 hk
  rw [← bytesOf_sent hsent] at hread
  -- which error the prefix is depends on where the cut falls
  have htorn : ((if k < 4 then FrameError.closed else .io .unexpectedEof) = .closed ↔ k = 0) ↔
      k = 0 ∨ 4 ≤ k := by
    split <;> simp <;> omega
  constructor
  · rintro ⟨-, ⟨e, he, hclosed⟩, -, -⟩
    rw [hread] at he
    obtain rfl := Except.error.inj he
    exact htorn.mp hclosed
  · intro hcut
    refine ⟨fun values hvalues => ?_, ⟨_, hread, htorn.mpr hcut⟩, ?_, ?_⟩
    · obtain ⟨bodies, hbodies⟩ := exists_bodies hvalues
      refine ⟨_, writeFrames_sent hbodies [], fun m => ?_⟩
      rw [List.nil_append, readFrames_sent hbodies]
    · exact fun v body sink hv hlen => writeFrame_oversize hv hlen sink
    · exact fun head rest broken hhead hlen => readFrame_of_header hhead hlen rest broken

/-- The JSON of a truth value. -/
def boolJson : JsonCodec Bool where
  toVec value := .ok (if value then [116, 114, 117, 101] else [102, 97, 108, 115, 101])
  fromSlice body :=
    if body = [116, 114, 117, 101] then .ok true
    else if body = [102, 97, 108, 115, 101] then .ok false
    else .error "expected a boolean"
  fromSlice_toVec value body h := by
    obtain rfl := Except.ok.inj h
    cases value <;> rfl

theorem framedStream_cut_in_body : FramedStream boolJson true 6 :=
  (framedStream_iff ⟨[116, 114, 117, 101], rfl, by decide⟩ (by decide)).mpr (by decide)

/-- One byte of a header is read as a clean end of the stream. -/
theorem torn_header_closed :
    (readFrame boolJson (.ended ((bytesOf boolJson true).take 1))).1 = .error .closed ∧
      ¬ FramedStream boolJson true 1 := by
  refine ⟨rfl, fun h => ?_⟩
  obtain ⟨e, he, hclosed⟩ := h.torn
  obtain rfl : FrameError.closed = e := Except.error.inj he
  exact absurd (hclosed.mp rfl) (by decide)

end Mielofon
