import Mielofon.Lib.Record
import Mielofon.Transport.Frame

namespace Mielofon

open Lib

/-!
# One request on a stream

A request is a frame on a fresh stream, and its answer the frame that comes back on it
(`session.rs`).  Either direction can break while it is written, lose what was written from some
byte on, and end in any way after that; the requester can give up at any moment.

* `Format` — a type of messages: its documents, and what is said of one it cannot read;
* `Way` — what becomes of the bytes of one direction;
* `request`, `respond` — the two ends;
* `receive_of_way` — what is read at the far end of a way is what was sent;
* `request_exact` — the handler runs at most once, on the request as it arrives, and what the
  requester gets is the handler's answer or an error.
-/

/-- The documents of a type of messages, and the complaint about a document that is none. -/
structure Format (T M : Type*) where
  codec : Codec T M
  complaint : Doc T → String

/-- What becomes of the bytes of one direction: where writing breaks, and from which byte on they
    are lost and how the stream then ends. -/
structure Way where
  breaks : Option (ℕ × String)
  lost : Option (ℕ × Option String)

/-- All bytes are written and arrive, and the stream ends. -/
def Way.whole : Way := ⟨none, none⟩

/-- What the reader sees of what was written. -/
def Way.source (way : Way) (sink : Sink) : Source :=
  match way.lost with
  | none => .ended sink.written
  | some (k, broken) => ⟨sink.written.take k, broken⟩

inductive RpcError where
  | timedOut
  /-- The stream could not be opened. -/
  | open (message : String)
  | frame (e : FrameError)
deriving DecidableEq, Repr

section

variable {T M Q R σ : Type*} (json : JsonCodec (Doc T))

/-- Write one message as a frame. -/
def send (format : Format T M) (sink : Sink) (m : M) : Except FrameError Unit × Sink :=
  writeFrame json sink (format.codec.write m)

/-- Read one message. -/
def receive (format : Format T M) (src : Source) : Except FrameError M × Source :=
  match readFrame json src with
  | (.error e, src) => (.error e, src)
  | (.ok doc, src) => match format.codec.read doc with
    | none => (.error (.json (format.complaint doc)), src)
    | some m => (.ok m, src)

/-- Serve one stream: read the request, let `handle` produce the answer, and write it.  Without an
    answer the stream is closed. -/
def respond (q : Format T Q) (r : Format T R) (handle : Q → σ → Option R × σ) (src : Source)
    (sink : Sink) (s : σ) : Except FrameError Unit × Sink × σ :=
  match receive json q src with
  | (.error e, _) => (.error e, sink, s)
  | (.ok req, _) => match handle req s with
    | (none, s) => (.ok (), sink, s)
    | (some resp, s) => ((send json r sink resp).1, (send json r sink resp).2, s)

/-- Open a stream, send one request, close the send side and read one answer.  `expired` is whether
    the requester gives up; the bytes that were under way can still be served. -/
def request (q : Format T Q) (r : Format T R) (handle : Q → σ → Option R × σ)
    (opened : Option String) (there back : Way) (expired : Bool) (req : Q) (s : σ) :
    Except RpcError R × σ :=
  match opened with
  | some message => (.error (.open message), s)
  | none =>
    let sent := send json q ⟨[], there.breaks⟩ req
    let served := respond json q r handle (there.source sent.2) ⟨[], back.breaks⟩ s
    (if expired then .error .timedOut
     else match sent.1 with
       | .error e => .error (.frame e)
       | .ok () => match (receive json r (back.source served.2.1)).1 with
         | .error e => .error (.frame e)
         | .ok resp => .ok resp,
     served.2.2)

end

/-! ### What arrives at the far end -/

section

variable {T : Type*} {json : JsonCodec T} {value v : T}

/-- A write that breaks leaves the bytes before the break. -/
theorem writeAll_written (written l : List UInt8) (k : ℕ) (e : String) :
    (Sink.writeAll ⟨written, some (k, e)⟩ l).2.written = written ++ l.take k := by
  by_cases h : l.length ≤ k
  · simp [Sink.writeAll, h, List.take_of_length_le h]
  · simp [Sink.writeAll, h]

theorem writeBody_written (body : List UInt8) (k : ℕ) (e : String) :
    (writeBody ⟨[], some (k, e)⟩ body).2.written = (frame body).take k := by
  have hhead := writeAll_written [] (be32 body.length) k e
  by_cases h : (be32 body.length).length ≤ k
  · have hwrite : Sink.writeAll ⟨[], some (k, e)⟩ (be32 body.length) =
        (.ok (), ⟨be32 body.length, some (k - 4, e)⟩) := if_pos h
    have hbody := writeAll_written (be32 body.length) body (k - 4) e
    rw [writeBody, hwrite]
    dsimp only
    rw [frame, List.take_append, List.take_of_length_le h, length_be32, ← hbody]
    split <;> rename_i heq <;> rw [heq]
  · have hwrite : Sink.writeAll ⟨[], some (k, e)⟩ (be32 body.length) =
        (.error (.other e), ⟨(be32 body.length).take k, some (0, e)⟩) := if_neg h
    rw [writeBody, hwrite]
    dsimp only
    rw [frame, List.take_append_of_le_length (by omega)]

/-- A write that breaks leaves a first part of what it was to write. -/
theorem writeFrame_written (value : T) (breaks : Option (ℕ × String)) :
    ∃ k, (writeFrame json ⟨[], breaks⟩ value).2.written = (bytesOf json value).take k := by
  cases hbody : json.toVec value with
  | error message => exact ⟨0, by rw [writeFrame, hbody]; rfl⟩
  | ok body =>
    by_cases hlen : maxFrame < body.length
    · exact ⟨0, by rw [writeFrame_oversize hbody hlen]; rfl⟩
    · have hsent : SentAs json value body := ⟨hbody, Nat.not_lt.mp hlen⟩
      rw [bytesOf_sent hsent]
      cases breaks with
      | none =>
        exact ⟨(frame body).length, by rw [writeFrame_sent hsent, List.take_length]; rfl⟩
      | some b =>
        refine ⟨b.1, ?_⟩
        rw [writeFrame, hbody]
        dsimp only
        rw [if_neg hlen]
        exact writeBody_written body b.1 b.2

/-- Nothing is read from a stream that is too short for a header. -/
theorem readFrame_short {bytes : List UInt8} (h : bytes.length < 4) (broken : Option String) :
    ∃ e, (readFrame json ⟨bytes, broken⟩).1 = .error e := by
  rw [readFrame, Source.readExact_of_lt h]
  cases broken with
  | none => exact ⟨_, rfl⟩
  | some message => exact ⟨_, rfl⟩

/-- A frame that is cut anywhere is not read, however the stream ends. -/
theorem readFrame_cut {body : List UInt8} (hbody : body.length ≤ maxFrame) {k : ℕ}
    (hk : k < (frame body).length) (broken : Option String) :
    ∃ e, (readFrame json ⟨(frame body).take k, broken⟩).1 = .error e := by
  by_cases hhead : k < 4
  · exact readFrame_short (by rw [List.length_take]; omega) broken
  · -- the cut is in the body: the header is whole
    obtain ⟨j, rfl⟩ : ∃ j, k = (be32 body.length).length + j := ⟨k - 4, by rw [length_be32]; omega⟩
    have hshort : (body.take j).length < body.length := by
      rw [length_frame, length_be32] at hk
      rw [List.length_take]
      omega
    rw [frame, List.take_length_add_append, readFrame, ← length_be32 body.length,
      Source.readExact_append]
    dsimp only
    rw [ofBe32_be32 (lt_of_le_maxFrame hbody), readBody, if_neg (Nat.not_lt.mpr hbody),
      Source.readExact_of_lt hshort]
    exact ⟨_, rfl⟩

theorem bytesOf_of_not_sendable (h : ¬ Sendable json value) : bytesOf json value = [] := by
  cases hbody : json.toVec value with
  | error message => rw [bytesOf, writeFrame, hbody]; rfl
  | ok body =>
    have hlen : maxFrame < body.length := Nat.lt_of_not_le fun hle => h ⟨body, hbody, hle⟩
    rw [bytesOf, writeFrame_oversize hbody hlen]
    rfl

/-- Only the whole frame is read, as what was sent. -/
theorem readFrame_of_take {k : ℕ} {broken : Option String}
    (h : (readFrame json ⟨(bytesOf json value).take k, broken⟩).1 = .ok v) : v = value := by
  have hnot : ∀ src, (∃ e, (readFrame json src).1 = .error e) → (readFrame json src).1 ≠ .ok v :=
    fun src ⟨e, he⟩ hok => absurd (he.symm.trans hok) (by simp)
  by_cases hsend : Sendable json value
  · obtain ⟨body, hsent⟩ := hsend
    rw [bytesOf_sent hsent] at h
    by_cases hk : (frame body).length ≤ k
    · have hread := readFrame_frame hsent [] broken
      rw [List.append_nil] at hread
      rw [List.take_of_length_le hk, hread] at h
      exact (Except.ok.inj h).symm
    · exact absurd h (hnot _ (readFrame_cut hsent.2 (Nat.not_le.mp hk) broken))
  · rw [bytesOf_of_not_sendable hsend, List.take_nil] at h
    exact absurd h (hnot _ (readFrame_short (by decide) broken))

end

section

variable {T M Q R σ : Type*} {json : JsonCodec (Doc T)} {format : Format T M}

theorem receive_of_readFrame {src : Source} {m : M} (h : (receive json format src).1 = .ok m) :
    ∃ doc, (readFrame json src).1 = .ok doc ∧ format.codec.read doc = some m := by
  rw [receive] at h
  split at h
  · exact absurd h (by simp)
  · rename_i doc rest hread
    cases hdoc : format.codec.read doc with
    | none =>
      rw [hdoc] at h
      exact absurd h (by simp)
    | some m' =>
      rw [hdoc] at h
      obtain rfl := Except.ok.inj h
      exact ⟨doc, by rw [hread], hdoc⟩

/-- What is read at the far end of a way is what was sent, as it arrives. -/
theorem receive_of_way {way : Way} {breaks : Option (ℕ × String)} {sent m : M}
    (h : (receive json format (way.source (send json format ⟨[], breaks⟩ sent).2)).1 = .ok m) :
    format.codec.arrive sent = some m := by
  obtain ⟨doc, hread, hdoc⟩ := receive_of_readFrame h
  obtain ⟨k, hwritten⟩ : ∃ k, (writeFrame json ⟨[], breaks⟩ (format.codec.write sent)).2.written =
      (bytesOf json (format.codec.write sent)).take k := writeFrame_written _ breaks
  have htake : ∃ j broken, way.source (send json format ⟨[], breaks⟩ sent).2 =
      ⟨(bytesOf json (format.codec.write sent)).take j, broken⟩ := by
    rw [Way.source, send, hwritten]
    cases way.lost with
    | none => exact ⟨k, none, rfl⟩
    | some l => exact ⟨min l.1 k, l.2, by simp [List.take_take]⟩
  obtain ⟨j, broken, htake⟩ := htake
  rw [htake] at hread
  rw [← format.codec.read_write, ← readFrame_of_take hread, hdoc]

/-- Nothing is read at the far end of a way on which nothing was written. -/
theorem receive_nothing (way : Way) (breaks : Option (ℕ × String)) :
    ∃ e, (receive json format (way.source ⟨[], breaks⟩)).1 = .error e := by
  obtain ⟨broken, hsrc⟩ : ∃ broken, way.source ⟨[], breaks⟩ = ⟨[], broken⟩ := by
    rw [Way.source]
    cases way.lost with
    | none => exact ⟨none, rfl⟩
    | some l => exact ⟨l.2, by simp⟩
  cases hread : (receive json format ⟨[], broken⟩).1 with
  | error e => exact ⟨e, by rw [hsrc, hread]⟩
  | ok m =>
    obtain ⟨doc, hdoc, -⟩ := receive_of_readFrame hread
    obtain ⟨e, he⟩ : ∃ e, (readFrame json ⟨[], broken⟩).1 = .error e :=
      readFrame_short (by decide) broken
    exact absurd (he.symm.trans hdoc) (by simp)

/-- A message that is not disturbed is read as it arrives. -/
theorem receive_whole {sent m : M} (hsend : Sendable json (format.codec.write sent))
    (harrive : format.codec.arrive sent = some m) :
    (send json format ⟨[], none⟩ sent).1 = .ok () ∧
      (receive json format (Way.whole.source (send json format ⟨[], none⟩ sent).2)).1 = .ok m := by
  obtain ⟨body, hsent⟩ := hsend
  have hwrite := writeFrame_sent hsent []
  have hread := readFrame_frame hsent [] none
  rw [List.append_nil] at hread
  rw [← format.codec.read_write] at harrive
  rw [send, hwrite]
  refine ⟨rfl, ?_⟩
  rw [receive, Way.source, Way.whole]
  dsimp only
  rw [Source.ended, List.nil_append, hread]
  dsimp only
  rw [harrive]

/-- The far end of a way on which nothing was written is a closed stream. -/
theorem receive_ended : (receive json format (Way.whole.source ⟨[], none⟩)).1 = .error .closed := by
  have hclosed : readFrame json (.ended []) = (.error .closed, .ended []) :=
    readFrame_of_short (by decide)
  rw [receive, Way.source, Way.whole]
  dsimp only
  rw [hclosed]

/-- A message that cannot be sent leaves the far end a closed stream. -/
theorem receive_unsendable {sent : M} (h : ¬ Sendable json (format.codec.write sent)) :
    (receive json format (Way.whole.source (send json format ⟨[], none⟩ sent).2)).1 =
      .error .closed := by
  have hnothing : (send json format ⟨[], none⟩ sent).2.written = [] := bytesOf_of_not_sendable h
  have hsource : Way.whole.source (send json format ⟨[], none⟩ sent).2 =
      Way.whole.source ⟨[], none⟩ := by
    rw [Way.whole, Way.source, Way.source, hnothing]
  rw [hsource, receive_ended]

/-! ### The exchange -/

variable {q : Format T Q} {r : Format T R} {handle : Q → σ → Option R × σ}

/-- The responder runs its handler on a request it could read. -/
theorem respond_of_receive (r : Format T R) (handle : Q → σ → Option R × σ) {src : Source} {got : Q}
    (h : (receive json q src).1 = .ok got) (sink : Sink) (s : σ) :
    (respond json q r handle src sink s).2 =
      (match (handle got s).1 with
        | none => sink
        | some resp => (send json r sink resp).2, (handle got s).2) := by
  rw [respond]
  rcases hread : receive json q src with ⟨(e | req), src'⟩
  · rw [hread] at h
    exact absurd h (by simp)
  · rw [hread] at h
    obtain rfl : req = got := Except.ok.inj h
    dsimp only
    rcases hhandle : handle req s with ⟨(_ | resp), s'⟩ <;> rfl

/-- Otherwise it does nothing. -/
theorem respond_cases (src : Source) (sink : Sink) (s : σ) :
    (respond json q r handle src sink s).2 = (sink, s) ∨ ∃ got, (receive json q src).1 = .ok got := by
  rw [respond]
  rcases receive json q src with ⟨(e | got), src'⟩
  · exact .inl rfl
  · exact .inr ⟨got, rfl⟩

/-- An answer was read at the end of the way back. -/
theorem receive_of_request {there back : Way} {expired : Bool} {req : Q} {s : σ} {resp : R}
    (h : (request json q r handle none there back expired req s).1 = .ok resp) :
    (receive json r (back.source (respond json q r handle
      (there.source (send json q ⟨[], there.breaks⟩ req).2) ⟨[], back.breaks⟩ s).2.1)).1 =
      .ok resp := by
  rw [request] at h
  dsimp only at h
  split at h
  · exact absurd h (by simp)
  · split at h
    · exact absurd h (by simp)
    · split at h
      · exact absurd h (by simp)
      · rename_i hread
        rw [hread, Except.ok.inj h]

/-- A request that was sent, and neither disturbed nor given up, is what is read of the answer. -/
theorem request_whole {req : Q} {s s' : σ} {sink : Sink}
    (hok : (send json q ⟨[], none⟩ req).1 = .ok ())
    (h : (respond json q r handle (Way.whole.source (send json q ⟨[], none⟩ req).2) ⟨[], none⟩ s).2 =
      (sink, s')) :
    request json q r handle none .whole .whole false req s =
      (match (receive json r (Way.whole.source sink)).1 with
        | .error e => .error (.frame e)
        | .ok resp => .ok resp, s') := by
  rw [request]
  dsimp only [Way.whole] at h hok ⊢
  rw [hok, h]
  rfl

/-- What a request comes to, of what its handler does with it. -/
structure Exact (json : JsonCodec (Doc T)) (q : Format T Q) (r : Format T R)
    (handle : Q → σ → Option R × σ) (opened : Option String) (there back : Way) (expired : Bool)
    (req : Q) (s : σ) (out : Except RpcError R × σ) : Prop where
  /-- The handler ran at most once, and on this request as it arrives. -/
  once : out.2 = s ∨ ∃ got, q.codec.arrive req = some got ∧ out.2 = (handle got s).2
  /-- Only what the handler answered is returned, as it arrives. -/
  answered : ∀ resp, out.1 = .ok resp → ∃ got answer, q.codec.arrive req = some got ∧
    handle got s = (some answer, out.2) ∧ r.codec.arrive answer = some resp
  /-- A request that nothing disturbs is answered, or closed where there is no answer to send. -/
  served : ∀ got, opened = none → there = .whole → back = .whole → expired = false →
    Sendable json (q.codec.write req) → q.codec.arrive req = some got →
      out.2 = (handle got s).2 ∧
      ((handle got s).1 = none → out.1 = .error (.frame .closed)) ∧
      ∀ answer, (handle got s).1 = some answer →
        (¬ Sendable json (r.codec.write answer) → out.1 = .error (.frame .closed)) ∧
        (Sendable json (r.codec.write answer) → ∀ resp, r.codec.arrive answer = some resp →
          out.1 = .ok resp)

/-- **Requests.** Wherever the two directions break and whenever the requester gives up, the handler
    runs at most once, and the requester is returned its answer or an error. -/
theorem request_exact (json : JsonCodec (Doc T)) (q : Format T Q) (r : Format T R)
    (handle : Q → σ → Option R × σ) (opened : Option String) (there back : Way) (expired : Bool)
    (req : Q) (s : σ) :
    Exact json q r handle opened there back expired req s
      (request json q r handle opened there back expired req s) := by
  cases opened with
  | some message =>
    exact ⟨.inl rfl, fun resp h => absurd h (by simp [request]), fun got h => absurd h (by simp)⟩
  | none =>
    have hcases : (respond json q r handle (there.source (send json q ⟨[], there.breaks⟩ req).2)
        ⟨[], back.breaks⟩ s).2 = (⟨[], back.breaks⟩, s) ∨
          ∃ got, (receive json q (there.source (send json q ⟨[], there.breaks⟩ req).2)).1 = .ok got :=
      respond_cases _ _ s
    have hnothing : ∃ e, (receive json r (back.source ⟨[], back.breaks⟩)).1 = .error e :=
      receive_nothing back back.breaks
    obtain ⟨e, he⟩ := hnothing
    refine ⟨?_, fun resp hok => ?_, ?_⟩
    · rcases hcases with h | ⟨got, hgot⟩
      · exact .inl (congrArg Prod.snd h)
      · exact .inr ⟨got, receive_of_way hgot,
          congrArg Prod.snd (respond_of_receive r handle hgot _ s)⟩
    · have hread := receive_of_request hok
      rcases hcases with h | ⟨got, hgot⟩
      · rw [h] at hread
        exact absurd (he.symm.trans hread) (by simp)
      · have hserved := respond_of_receive r handle hgot ⟨[], back.breaks⟩ s
        rw [hserved] at hread
        cases hanswer : (handle got s).1 with
        | none =>
          rw [hanswer] at hread
          exact absurd (he.symm.trans hread) (by simp)
        | some answer =>
          rw [hanswer] at hread
          refine ⟨got, answer, receive_of_way hgot, ?_, receive_of_way hread⟩
          rw [← hanswer]
          exact Prod.ext rfl (congrArg Prod.snd hserved).symm
    · rintro got - rfl rfl rfl hsend harrive
      obtain ⟨hok, hgot⟩ := receive_whole hsend harrive
      have hserved := respond_of_receive r handle hgot ⟨[], none⟩ s
      rw [request_whole hok hserved]
      refine ⟨rfl, fun hnone => ?_, fun answer hanswer =>
        ⟨fun hunsent => ?_, fun hsent resp hresp => ?_⟩⟩
      · rw [hnone]
        dsimp only
        rw [receive_ended]
      · rw [hanswer]
        dsimp only
        rw [receive_unsendable hunsent]
      · rw [hanswer]
        dsimp only
        rw [(receive_whole hsent hresp).2]

end

end Mielofon
